import Negotiation.Proofs.GroupOutcome

/-!
Groups of one.

Two ports that could be bound to one another directly may as well be joined by a group with one
branch. If the direct binding resolves to a parameter, so does the trunk of the group.  The nexus
hands this parameter on as one that travels in a single direction, and checks it against the schema
of that direction alone: so the branch resolves to it too if and only if this schema declares the
fields of both (`Graph.one_branch_outcome`).
-/

namespace Negotiation

/-- The group with one branch that joins an output to an input. -/
def FanGroup.between (mode : GroupMode) (output input : Port) (policy : Policy) : FanGroup where
  mode
  single := (mode.oriented output input).1
  many := [(mode.oriented output input).2]
  policy
  pre := .identity
  post := .identity

namespace GroupMode

/-- The direction in which a nexus hands the settled trunk on has every field of the protocol. -/
def Covers (mode : GroupMode) (protocol : Protocol) : Prop :=
  ∀ name, (protocol.schema mode.backward).contains name = true →
    (protocol.schema mode.forward).contains name = true

/-- What holds of both parameters holds of them whichever comes from the single side. -/
theorem sides_and {P : Parameter → Prop} {p q : Parameter} (mode : GroupMode) (h : P p ∧ P q) :
    P (mode.sides p q).1 ∧ P (mode.sides p q).2 := by
  cases mode with
  | fanOut => exact h
  | fanIn => exact h.symm

end GroupMode

namespace Graph

section OneBranch

variable {w : Wiring} {group : FanGroup} {protocol : Protocol} {bound : BoundGroup}
  {single many v : Parameter}
  (h : PlainGroup w group protocol bound single [many])
  (hmerge : protocol.merge = .policy group.policy) (hconcrete : many.isConcrete = true)
  (hseparated : group.policy = .intersect → single.Separated ∧ many.Separated)
  (hv : group.policy.merge single many = .ok v)

namespace PlainGroup

include h hmerge hconcrete hseparated hv

/-- The trunk merges what the two ports state, as an edge between them would. -/
theorem yields_trunk_of_merge : w.Yields (.edge bound.trunk) [v] := by
  have hreduce : group.policy.reduce [many] = .ok many := by
    rw [Policy.reduce, Parameter.settle_of_isConcrete hconcrete]
    rfl
  have hfits := h.many_fits many List.mem_cons_self
  refine h.yields_trunk_iff.mpr ⟨many, v, hreduce, hfits, ?_, rfl⟩
  rw [hmerge]
  exact (group.mode.merge_policy_eq_ok_iff hseparated).mpr hv

/-- The branch resolves to what the trunk has settled to, if the nexus may hand it on. -/
theorem yields_branch_of_merge {e : EdgeId} (he : e ∈ bound.branches) (out : List Parameter) :
    w.Yields (.edge e) out ↔ group.mode.Covers protocol ∧ out = [v] := by
  have htrunk := h.yields_trunk_of_merge hmerge hconcrete hseparated hv
  have hfits := h.many_fits many List.mem_cons_self
  have hcovers :
      (protocol.schema group.mode.forward).admits v = true ↔ group.mode.Covers protocol :=
    Schema.admits_merge_iff h.ends.single.2 hfits hv
  have hagain : group.mode.Covers protocol →
      group.mode.merge (.policy group.policy) v many = .ok v := by
    intro hdeclared
    refine (group.mode.merge_policy_eq_ok_iff fun hpolicy => ?_).mpr ?_
    · obtain ⟨hsingle, hmany⟩ := hseparated hpolicy
      exact ⟨Policy.separated_of_merge hsingle hmany (hpolicy ▸ hv), hmany⟩
    · refine Policy.absorbs_of_merge (fun hpolicy => (hseparated hpolicy).symm) ?_
        (Policy.merge_comm hseparated hv)
      intro name s hs
      rw [Schema.isSome_get? h.ends.single.2]
      refine hdeclared name ?_
      rw [← Schema.isSome_get? hfits, hs]
      rfl
  obtain ⟨a, ha, hbranch⟩ := h.yields_branch_iff he
  rw [List.mem_singleton.mp ha] at hbranch
  rw [hbranch]
  constructor
  · rintro ⟨settled, value, hsettled, hadmits, hvalue, rfl⟩
    obtain rfl : settled = v := (List.cons.inj (hsettled.unique htrunk)).1
    have hdeclared := hcovers.mp hadmits
    rw [hagain hdeclared] at hvalue
    exact ⟨hdeclared, by rw [Except.ok.inj hvalue]⟩
  · rintro ⟨hdeclared, rfl⟩
    exact ⟨v, v, htrunk, hcovers.mpr hdeclared, hagain hdeclared, rfl⟩

end PlainGroup

end OneBranch

section Direct

variable {g direct : Graph} {output input : Port} {e : EdgeId} {v : Parameter}

/-- What a binding that was made has passed, and the edge that it added. -/
theorem bind_ok (hbind : g.bind output input = (.ok e, direct)) :
    ∃ protocol, g.ensureOpen = .ok () ∧ g.checkBinding output input = .ok protocol ∧
      direct.wiring.edge? e = some ⟨e, output, input, protocol, .identity, none⟩ := by
  rw [bind, bindThrough] at hbind
  split at hbind
  · cases hbind
  · rename_i hopen
    split at hbind
    · cases hbind
    · rename_i protocol hcheck
      cases hbind
      exact ⟨protocol, hopen, hcheck, (g.wiring.edge?_addEdge _ _).trans (if_pos rfl)⟩

/-- A group with one branch may be bound if its two ports may be bound to one another. -/
theorem checkGroup_of_pair {group : FanGroup} {port : Port} {spec : PortSpec}
    (hmany : group.many = [port]) (hside : group.single.side = group.mode.singleSide)
    (hspec : g.portSpec group.single = .ok spec) (hsingle : g.checkCapacity group.single 0 = .ok ())
    (hpair : g.checkPair (group.mode.oriented group.single port).1
      (group.mode.oriented group.single port).2 = .ok ())
    (hport : g.checkCapacity port 0 = .ok ()) : g.checkGroup group = .ok spec.protocol := by
  have hprotocol : g.groupProtocol group = .ok spec.protocol := by
    rw [groupProtocol, hmany]
    refine bind_eq_ok_iff.mpr ⟨spec, hspec, ?_⟩
    rw [if_neg (not_not.mpr hside)]
  have hbranch : g.checkMany group [] group.many = .ok () := by
    rw [hmany]
    exact bind_eq_ok_iff.mpr ⟨(), hpair, bind_eq_ok_iff.mpr ⟨(), hport, rfl⟩⟩
  exact bind_eq_ok_iff.mpr ⟨spec.protocol, hprotocol,
    bind_eq_ok_iff.mpr ⟨(), hsingle, bind_eq_ok_iff.mpr ⟨(), hbranch, rfl⟩⟩⟩

/-- Ports that may be bound directly may be joined by a group. -/
theorem checkGroup_between {protocol : Protocol}
    (hcheck : g.checkBinding output input = .ok protocol) (mode : GroupMode) (policy : Policy) :
    ∃ own, g.checkGroup (.between mode output input policy) = .ok own := by
  obtain ⟨⟨⟩, hpair, hcheck⟩ := exists_of_bind_eq_ok hcheck
  obtain ⟨⟨⟩, houtput, hcheck⟩ := exists_of_bind_eq_ok hcheck
  obtain ⟨⟨⟩, hinput, _⟩ := exists_of_bind_eq_ok hcheck
  obtain ⟨outputSpec, inputSpec, hout, hin, houtside, hinside, _⟩ := checkPair_ok hpair
  cases mode with
  | fanOut =>
      exact ⟨_, checkGroup_of_pair rfl houtside (portSpec_of_spec? hout) houtput hpair hinput⟩
  | fanIn =>
      exact ⟨_, checkGroup_of_pair rfl hinside (portSpec_of_spec? hin) hinput hpair houtput⟩

/-- What an edge is shown to be resolved to is what it resolves to. -/
theorem Sound.yields_of_resolved? (hsound : g.Sound) (h : g.resolved? e = some v) :
    g.wiring.Yields (.edge e) [v] := by
  have hkey : g.wiring.HasKey (.edge e) := by
    rw [resolved?] at h
    split at h
    · rename_i hedge
      exact Wiring.HasKey.of_edge? hedge
    · cases h
  rw [resolved?_eq hkey] at h
  obtain ⟨values, hvalues, hhead⟩ := Option.bind_eq_some_iff.mp h
  have hyields := hsound.settled.consistent.yields (get_of_values? hvalues)
  obtain ⟨value, rfl⟩ := hyields.edge_singleton
  rw [← Option.some.inj hhead]
  exact hyields

theorem resolved?_of_resolve (h : (g.resolve e).1 = .ok v) :
    (g.call (.resolve e)).resolved? e = some v := by
  rw [call]
  rw [resolve] at h ⊢
  split at h
  · cases h
  · split at h
    · cases h
    · split at h
      · rename_i hresolved
        cases h
        exact hresolved
      · cases h

/-- What a direct binding of a source to a sink resolves to is the merge of what the two state. -/
theorem merge_of_bind (hg : g.Reachable) (hbind : g.bind output input = (.ok e, direct))
    {spec : PortSpec} (hspec : g.portSpec output = .ok spec) {offer demand : Parameter}
    (hoffer : g.wiring.States output .down offer) (hdemand : g.wiring.States input .up demand)
    (hresolve : (direct.resolve e).1 = .ok v) :
    g.checkBinding output input = .ok spec.protocol ∧
      (spec.protocol.schema .down).admits offer = true ∧
      (spec.protocol.schema .up).admits demand = true ∧
      spec.protocol.merge.merge offer demand = .ok v := by
  have hdirect : direct = g.serve (.build (.bind output input)) := by
    rw [serve, build, hbind]
  obtain ⟨protocol, _, hcheck, hedge⟩ := bind_ok hbind
  obtain ⟨⟨⟩, _, hrest⟩ := exists_of_bind_eq_ok hcheck
  obtain ⟨⟨⟩, _, hrest⟩ := exists_of_bind_eq_ok hrest
  obtain ⟨⟨⟩, _, hrest⟩ := exists_of_bind_eq_ok hrest
  obtain ⟨found, hfound, hprotocol⟩ := exists_of_bind_eq_ok hrest
  obtain rfl : spec = found := Except.ok.inj (hspec.symm.trans hfound)
  obtain rfl : spec.protocol = protocol := Except.ok.inj hprotocol
  have hsound : direct.Sound := (hdirect ▸ hg.serve _).sound
  obtain ⟨hprogress, hsettled⟩ := hsound.call (.resolve e)
  have hyields := hsettled.yields_of_resolved? (resolved?_of_resolve hresolve)
  rw [hprogress.wiring, Wiring.yields_edge_iff hedge] at hyields
  have hgrown : g.wiring.Extends direct.wiring := by
    rw [hdirect]
    exact (hg.sound.serve _).2.1
  obtain ⟨down, up, value, hdown, hup, hmerge, hvalue⟩ := hyields
  have hoffer' := hoffer.extends hgrown
  have hdemand' := hdemand.extends hgrown
  obtain ⟨hfits, rfl⟩ :=
    (Wiring.crosses_iff_of_states .down hsound.wellFormed hedge rfl hoffer').mp hdown
  obtain ⟨hfits', rfl⟩ :=
    (Wiring.crosses_iff_of_states .up hsound.wellFormed hedge rfl hdemand').mp hup
  obtain rfl := (List.cons.inj hvalue).1
  exact ⟨hcheck, hfits, hfits', hmerge⟩

end Direct

section Requests

variable {g direct : Graph} {output input : Port} {e : EdgeId} {v : Parameter}

theorem merge_of_agrees {rule : MergeRule} {policy : Policy}
    (h : rule.agrees (.policy policy) = true) : rule = .policy policy := by
  cases rule with
  | policy own => exact congrArg MergeRule.policy (of_decide_eq_true h)
  | author identity run => cases h

/-- What the ends of a group with one branch state, in place of a binding that was made. -/
theorem ends_between {protocol : Protocol} {policy : Policy} {offer demand : Parameter}
    (hcheck : g.checkBinding output input = .ok protocol) (hmerge : protocol.merge = .policy policy)
    (hoffer : g.wiring.States output .down offer ∧ (protocol.schema .down).admits offer = true)
    (hdemand : g.wiring.States input .up demand ∧ (protocol.schema .up).admits demand = true)
    (hseparated : policy = .intersect → offer.Separated ∧ demand.Separated)
    (hv : policy.merge offer demand = .ok v) (mode : GroupMode) :
    ∃ spec, g.portSpec (FanGroup.between mode output input policy).single = .ok spec ∧
      spec.protocol.signature = protocol.signature ∧ spec.protocol.merge = .policy policy ∧
      HasEnds g.wiring (.between mode output input policy) spec.protocol
        (mode.sides offer demand).1 [(mode.sides offer demand).2] ∧
      policy.merge (mode.sides offer demand).1 (mode.sides offer demand).2 = .ok v := by
  obtain ⟨_, ⟨⟨_, outputSpec, hout, houtput⟩, _⟩, ⟨_, inputSpec, hin, hinput⟩, _⟩ :=
    checkBinding_ok hcheck
  have hagrees : ∀ {own : Protocol}, own.Agrees protocol → own.merge = .policy policy := fun h =>
    merge_of_agrees (hmerge ▸ h.merge)
  cases mode with
  | fanOut =>
      refine ⟨outputSpec, portSpec_of_spec? hout, houtput.signature, hagrees houtput, ⟨?_, ?_⟩, hv⟩
      · rw [Protocol.schema.eq_def, houtput.signature]
        exact hoffer
      · refine .cons ?_ .nil
        rw [Protocol.schema.eq_def, houtput.signature]
        exact hdemand
  | fanIn =>
      refine ⟨inputSpec, portSpec_of_spec? hin, hinput.signature, hagrees hinput, ⟨?_, ?_⟩,
        Policy.merge_comm hseparated hv⟩
      · rw [Protocol.schema.eq_def, hinput.signature]
        exact hdemand
      · refine .cons ?_ .nil
        rw [Protocol.schema.eq_def, hinput.signature]
        exact hoffer

/-- A group with one branch can be bound where its two ports can be bound to one another. -/
theorem bindGroup_between (hbind : g.bind output input = (.ok e, direct))
    (hwf : g.wiring.WellFormed) (mode : GroupMode) (policy : Policy) :
    ∃ nexus trunk branch built, g.bindGroup (.between mode output input policy) =
      (.ok ⟨nexus, trunk, [branch]⟩, built) := by
  obtain ⟨protocol, hopen, hcheck, _⟩ := bind_ok hbind
  obtain ⟨own, hgroup⟩ := checkGroup_between hcheck mode policy
  have hone := (pushGroup_spec hwf hgroup).2.branches.length_eq
  simp only [bindGroup, hopen, hgroup]
  generalize g.pushGroup _ own = pushed at hone ⊢
  obtain ⟨⟨nexus, trunk, branches⟩, built⟩ := pushed
  obtain ⟨branch, rfl⟩ := List.length_eq_one_iff.mp hone
  exact ⟨nexus, trunk, branch, built, rfl⟩

/-- A source and a sink that are joined by a group with one branch, in place of a binding that
resolves to `v`: the group can be bound, its trunk resolves to `v`, and its branch resolves to `v`
if the schema of the direction that leads away from the trunk declares every field of the other
one, and fails otherwise. -/
theorem one_branch_outcome (hg : g.Reachable) (hbind : g.bind output input = (.ok e, direct))
    {spec : PortSpec} {policy : Policy} (hspec : g.portSpec output = .ok spec)
    (hmerge : spec.protocol.merge = .policy policy) {offer demand : Parameter}
    (hoffer : g.wiring.States output .down offer) (hdemand : g.wiring.States input .up demand)
    (hconcrete : offer.isConcrete = true ∧ demand.isConcrete = true)
    (hseparated : policy = .intersect → offer.Separated ∧ demand.Separated)
    (hresolve : (direct.resolve e).1 = .ok v) (mode : GroupMode) :
    ∃ nexus trunk branch built, g.bindGroup (.between mode output input policy) =
        (.ok ⟨nexus, trunk, [branch]⟩, built) ∧ ∀ requests : List Request,
      ((∃ c : Call, .call c ∈ requests ∧ c.Demands trunk) →
        (built.serves requests).progress (.edge trunk) = .resolved ∧
          (built.serves requests).resolved? trunk = some v) ∧
      ((∃ c : Call, .call c ∈ requests ∧ c.Demands branch) →
        (mode.Covers spec.protocol → (built.serves requests).progress (.edge branch) = .resolved ∧
          (built.serves requests).resolved? branch = some v) ∧
        (¬ mode.Covers spec.protocol →
          (built.serves requests).progress (.edge branch) = .failed)) := by
  obtain ⟨hcheck, hfits, hfits', hv⟩ := merge_of_bind hg hbind hspec hoffer hdemand hresolve
  rw [hmerge] at hv
  obtain ⟨own, hown, hsignature, hrule, hends, hv'⟩ :=
    ends_between hcheck hmerge ⟨hoffer, hfits⟩ ⟨hdemand, hfits'⟩ hseparated hv mode
  obtain ⟨nexus, trunk, branch, built, hbuilt⟩ :=
    bindGroup_between hbind hg.sound.wellFormed mode policy
  refine ⟨nexus, trunk, branch, built, hbuilt, fun requests => ?_⟩
  have hcovers : mode.Covers own.protocol ↔ mode.Covers spec.protocol := by
    simp only [GroupMode.Covers, Protocol.schema.eq_def, hsignature]
  have hmany := (mode.sides_and (P := fun p => p.isConcrete = true) hconcrete).2
  have hapart := fun hpolicy => mode.sides_and (hseparated hpolicy)
  obtain ⟨hplain, hterminal⟩ := hg.plainGroup hbuilt hown rfl rfl hends requests
  have htrunk := hplain.yields_trunk_of_merge hrule hmany hapart hv'
  have hbranch := hplain.yields_branch_of_merge hrule hmany hapart hv' List.mem_cons_self
  have hsound := ((hg.bindGroup hbuilt).serves requests).sound
  refine ⟨fun hdemanded => ?_, fun hdemanded => ?_⟩
  · have hedge : trunk = trunk ∨ trunk ∈ [branch] := Or.inl rfl
    exact (hsound.outcome_of_isTerminal (hterminal trunk hedge hdemanded) (hplain.hasKey hedge)).1 v
      htrunk
  · have hedge : branch = trunk ∨ branch ∈ [branch] := Or.inr List.mem_cons_self
    obtain ⟨hresolved, hfailed⟩ :=
      hsound.outcome_of_isTerminal (hterminal branch hedge hdemanded) (hplain.hasKey hedge)
    refine ⟨fun hdeclared => hresolved v ((hbranch _).mpr ⟨hcovers.mpr hdeclared, rfl⟩),
      fun hmissing => hfailed ?_⟩
    rintro ⟨out, hout⟩
    exact hmissing (hcovers.mp ((hbranch out).mp hout).1)

end Requests

/-- A protocol that says more downward than upward. -/
def lopsided : Protocol :=
  ⟨⟨"bus", .ofList [("lanes", .number), ("window", .address)], .ofList [("window", .address)]⟩,
    .policy .intersect, .absent, .absent⟩

/-- A source that offers lanes and a window, and a sink that demands a window. -/
def pair : Graph :=
  after {} [.build (.addNode (.source "cpu" lopsided (.exactly 1)
      (.ofList [("lanes", .num 8), ("window", .addr (.ofList [⟨0, 32⟩]))]))),
    .build (.addNode (.sink "ram" lopsided (.exactly 1)
      (.ofList [("window", .addr (.ofList [⟨16, 32⟩]))])))]

/-- The group with one branch between the source and the sink. -/
def pairing (mode : GroupMode) : FanGroup :=
  .between mode (NodeId.output ⟨0⟩ 0) (NodeId.input ⟨1⟩ 0) .intersect

/-- What the source and the sink come to. -/
def paired : Parameter :=
  .ofList [("lanes", .num 8), ("window", .addr (.ofList [⟨16, 16⟩]))]

theorem resolve_pair :
    ((pair.bind (NodeId.output ⟨0⟩ 0) (NodeId.input ⟨1⟩ 0)).2.resolve ⟨0⟩).1 = .ok paired := by
  simp (disch := decide) only [pair, paired, WindowSet.ofList_singleton]
  decide

/-- Bound directly, the source and the sink come to a value; the branch of a fan-in between them
fails. -/
theorem pairing_branch_fails :
    pair.Reachable ∧ (pair.bind (NodeId.output ⟨0⟩ 0) (NodeId.input ⟨1⟩ 0)).1 = .ok ⟨0⟩ ∧
      ((pair.bind (NodeId.output ⟨0⟩ 0) (NodeId.input ⟨1⟩ 0)).2.resolve ⟨0⟩).1 = .ok paired ∧
      (pair.bindGroup (pairing .fanIn)).1 = .ok ⟨⟨2⟩, ⟨1⟩, [⟨0⟩]⟩ ∧
      ((pair.bindGroup (pairing .fanIn)).2.serves [.call .resolveAll]).resolved? ⟨1⟩ = some paired ∧
      ((pair.bindGroup (pairing .fanIn)).2.serves [.call .resolveAll]).progress (.edge ⟨0⟩) =
        .failed := by
  refine ⟨reachable_after _ _, by decide, resolve_pair, ?_⟩
  simp (disch := decide) only [pair, paired, WindowSet.ofList_singleton]
  decide

theorem lopsided_covers :
    GroupMode.Covers .fanOut lopsided ∧ ¬ GroupMode.Covers .fanIn lopsided := by
  refine ⟨fun name hname => ?_, fun hcovers => absurd (hcovers "lanes" (by decide)) (by decide)⟩
  have hkeys : (lopsided.schema .up).keys = ["window"] := by decide
  have hmem : name ∈ (lopsided.schema .up).keys := Fields.contains_iff_mem_keys.mp hname
  rw [hkeys] at hmem
  obtain rfl := List.mem_singleton.mp hmem
  decide

theorem pair_separated :
    Parameter.Separated (.ofList [("lanes", .num 8), ("window", .addr (.ofList [⟨0, 32⟩]))]) ∧
      Parameter.Separated (.ofList [("window", .addr (.ofList [⟨16, 32⟩]))]) := by
  have hlanes : (Value.num 8).Separated := Value.separated_of_kind nofun
  refine ⟨Parameter.separated_ofList ?_, Parameter.separated_ofList ?_⟩
  · simp [hlanes, Value.separated_addr_ofList]
  · simp [Value.separated_addr_ofList]

/-- By way of a fan-out the source and the sink come to the same value as bound directly; by way of
a fan-in only the trunk does. -/
theorem pairing_outcome :
    pair.Reachable ∧
      (∃ nexus trunk branch built, pair.bindGroup (pairing .fanOut) =
          (.ok ⟨nexus, trunk, [branch]⟩, built) ∧
        (built.serves [.call (.resolve branch), .call (.resolve trunk)]).resolved? trunk =
          some paired ∧
        (built.serves [.call (.resolve branch), .call (.resolve trunk)]).resolved? branch =
          some paired) ∧
      ∃ nexus trunk branch built, pair.bindGroup (pairing .fanIn) =
          (.ok ⟨nexus, trunk, [branch]⟩, built) ∧
        (built.serves [.call .freeze]).resolved? trunk = some paired ∧
        (built.serves [.call .freeze]).progress (.edge branch) = .failed := by
  have hpair : pair.Reachable := reachable_after _ _
  have hbind : pair.bind (NodeId.output ⟨0⟩ 0) (NodeId.input ⟨1⟩ 0) =
      (.ok ⟨0⟩, (pair.bind (NodeId.output ⟨0⟩ 0) (NodeId.input ⟨1⟩ 0)).2) :=
    Prod.ext (by decide) rfl
  have houtcome := one_branch_outcome (v := paired) hpair hbind rfl rfl ⟨_, _, rfl, rfl⟩
    ⟨_, _, rfl, rfl⟩ ⟨by decide, by decide⟩ (fun _ => pair_separated) resolve_pair
  refine ⟨hpair, ?_, ?_⟩
  · obtain ⟨nexus, trunk, branch, built, hbuilt, hrequests⟩ := houtcome .fanOut
    obtain ⟨htrunk, hbranch⟩ := hrequests [.call (.resolve branch), .call (.resolve trunk)]
    obtain ⟨_, htrunk⟩ := htrunk ⟨.resolve trunk, by simp, rfl⟩
    obtain ⟨_, hbranch⟩ := (hbranch ⟨.resolve branch, by simp, rfl⟩).1 lopsided_covers.1
    exact ⟨nexus, trunk, branch, built, hbuilt, htrunk, hbranch⟩
  · obtain ⟨nexus, trunk, branch, built, hbuilt, hrequests⟩ := houtcome .fanIn
    obtain ⟨htrunk, hbranch⟩ := hrequests [.call .freeze]
    obtain ⟨_, htrunk⟩ := htrunk ⟨.freeze, by simp, trivial⟩
    exact ⟨nexus, trunk, branch, built, hbuilt, htrunk,
      (hbranch ⟨.freeze, by simp, trivial⟩).2 lopsided_covers.2⟩

end Graph

end Negotiation
