import Negotiation.Proofs.Keeping
import Negotiation.Proofs.Requests

/-!
The value of a group.

The nexus of a group hands the settled trunk on to every branch, and reduces what comes from the
branches into what meets on the trunk (`Wiring.nexus_forward`, `Wiring.nexus_backward`).  A branch
settles once more, with the policy of the group, so that it has the value of the trunk if and only if
the policy keeps what the branch asks for (`Graph.branch_value`).
-/

namespace Negotiation

namespace GroupMode

/-- The direction from the single side of a group to its many side. -/
def forward : GroupMode → Direction
  | .fanOut => .down
  | .fanIn => .up

/-- The direction from the many side of a group to its single side. -/
def backward : GroupMode → Direction
  | .fanOut => .up
  | .fanIn => .down

/-- What meets on an edge of a group, downward and upward: what comes from the single side, and what
comes from the many side. -/
def sides (mode : GroupMode) (single many : Parameter) : Parameter × Parameter :=
  match mode with
  | .fanOut => (single, many)
  | .fanIn => (many, single)

end GroupMode

namespace Direction

/-- The key of what a node emits in a direction. -/
def key (direction : Direction) (n : NodeId) : FlowKey :=
  match direction with
  | .down => .down n
  | .up => .up n

/-- The side at which parameters that travel in a direction arrive. -/
def arrival : Direction → Side
  | .down => .input
  | .up => .output

end Direction

namespace Wiring

variable {w : Wiring} {memo : Memo}

section Inversion

/-! What a result of an evaluation comes from. -/

theorem crossing_ok {edge : Edge} {direction : Direction} {value : Parameter}
    (h : crossing memo edge direction = .ok value) :
    ∃ values emitted, memo.values? (emitter edge direction) = some values ∧
      values[(edge.origin direction).index]? = some emitted ∧
      edge.adapter.apply direction emitted = .ok value := by
  rw [crossing] at h
  split at h
  · cases h
  · rename_i emitted hemitted
    obtain ⟨values, hvalues, hindex⟩ := Option.bind_eq_some_iff.mp hemitted
    split at h
    · cases h
    · rename_i crossed hadapter
      split at h
      · cases h
      · cases h
        exact ⟨values, emitted, hvalues, hindex, hadapter⟩

theorem evaluate_edge_ok {e : EdgeId} {edge : Edge} {values : List Parameter}
    (hedge : w.edge? e = some edge) (h : w.evaluate memo (.edge e) = .ok values) :
    ∃ down up value, values = [value] ∧ flows memo edge = .ok (down, up) ∧
      crossing memo edge .down = .ok down ∧ crossing memo edge .up = .ok up ∧
      edge.rule.merge down up = .ok value := by
  rw [evaluate, mapError_eq_ok_iff] at h
  simp only [hedge] at h
  obtain ⟨value, hsettle, rfl⟩ := exists_of_map_eq_ok h
  obtain ⟨⟨down, up⟩, hflows, hmerge⟩ := exists_of_bind_eq_ok hsettle
  obtain ⟨_, hdown, hrest⟩ := exists_of_bind_eq_ok hflows
  obtain ⟨_, hup, hpair⟩ := exists_of_bind_eq_ok hrest
  cases hpair
  exact ⟨down, up, value, rfl, hflows, hdown, hup, mapError_eq_ok_iff.mp hmerge⟩

theorem checkEmitted_ok {key : FlowKey} {direction : Direction} {values out : List Parameter}
    {ports : List PortSpec} (h : checkEmitted key direction values ports = .ok out) :
    out = values := by
  rw [checkEmitted] at h
  split at h
  · cases h
  · split at h
    · cases h
    · exact (Except.ok.inj h).symm

theorem evaluate_down_ok {n : NodeId} {slot : Slot} {values : List Parameter}
    (hslot : w.slot? n = some slot) (hreads : slot.node.flow.downReadsInward = true)
    (h : w.evaluate memo (.down n) = .ok values) :
    ∃ gathered feedback,
      w.gather memo slot .input .down slot.node.flow.downReadsResolved = .ok gathered ∧
        slot.node.downward ⟨gathered, feedback⟩ = .ok values := by
  rw [evaluate, mapError_eq_ok_iff] at h
  simp only [hslot] at h
  obtain ⟨readings, hreadings, hrest⟩ := exists_of_bind_eq_ok h
  obtain ⟨emitted, hemitted, hchecked⟩ := exists_of_bind_eq_ok hrest
  obtain rfl := checkEmitted_ok hchecked
  simp only [downReadings, hreads, ↓reduceIte] at hreadings
  obtain ⟨gathered, hgathered, hrest⟩ := exists_of_bind_eq_ok hreadings
  refine ⟨gathered, readings.feedback, hgathered, ?_⟩
  have hvalues : readings.values = gathered := by
    split at hrest
    · obtain ⟨feedback, _, hpair⟩ := exists_of_bind_eq_ok hrest
      cases hpair
      rfl
    · cases hrest
      rfl
  rw [← hvalues]
  exact mapError_eq_ok_iff.mp hemitted

theorem evaluate_up_ok {n : NodeId} {slot : Slot} {values : List Parameter}
    (hslot : w.slot? n = some slot) (hreads : slot.node.flow.upReadsOutward = true)
    (h : w.evaluate memo (.up n) = .ok values) :
    ∃ gathered feedback,
      w.gather memo slot .output .up slot.node.flow.upReadsResolved = .ok gathered ∧
        slot.node.upward ⟨gathered, feedback⟩ = .ok values := by
  rw [evaluate, mapError_eq_ok_iff] at h
  simp only [hslot] at h
  obtain ⟨readings, hreadings, hrest⟩ := exists_of_bind_eq_ok h
  obtain ⟨emitted, hemitted, hchecked⟩ := exists_of_bind_eq_ok hrest
  obtain rfl := checkEmitted_ok hchecked
  simp only [upReadings, hreads, ↓reduceIte] at hreadings
  obtain ⟨gathered, hgathered, hrest⟩ := exists_of_bind_eq_ok hreadings
  refine ⟨gathered, readings.feedback, hgathered, ?_⟩
  have hvalues : readings.values = gathered := by
    split at hrest
    · obtain ⟨feedback, _, hpair⟩ := exists_of_bind_eq_ok hrest
      cases hpair
      rfl
    · cases hrest
      rfl
  rw [← hvalues]
  exact mapError_eq_ok_iff.mp hemitted

/-- Every member of a list of computations that all come to a result is among the results. -/
theorem exists_of_mapM_eq_ok {α β ε : Type} {f : α → Except ε β} {xs : List α} {ys : List β}
    (h : xs.mapM f = .ok ys) {x : α} (hx : x ∈ xs) : ∃ y ∈ ys, f x = .ok y := by
  induction xs generalizing ys with
  | nil => cases hx
  | cons first rest ih =>
      rw [List.mapM_cons] at h
      obtain ⟨y, hy, h⟩ := exists_of_bind_eq_ok h
      obtain ⟨others, hothers, hpair⟩ := exists_of_bind_eq_ok h
      cases hpair
      rcases List.mem_cons.mp hx with rfl | hmem
      · exact ⟨y, List.mem_cons_self, hy⟩
      · obtain ⟨z, hz, hfz⟩ := ih hothers hmem
        exact ⟨z, List.mem_cons_of_mem _ hz, hfz⟩

/-- What a node with one port on a side reads there. -/
theorem gather_ok {slot : Slot} {side : Side} {direction : Direction} {resolved : Bool}
    {spec : PortSpec} {gathered : List (List Parameter)} (hports : slot.ports side = [spec])
    (htabled : (slot.edges side).length = (slot.ports side).length)
    (h : w.gather memo slot side direction resolved = .ok gathered) :
    ∃ read, gathered = [read] ∧ ∀ e ∈ slot.portEdges side 0,
      ∃ value ∈ read, w.readEdge memo direction resolved e = .ok value := by
  rw [hports] at htabled
  obtain ⟨edges, hedges⟩ := List.length_eq_one_iff.mp htabled
  rw [gather, hports, hedges, List.zip_cons_cons, List.zip_nil_right, List.mapM_cons] at h
  obtain ⟨read, hread, hrest⟩ := exists_of_bind_eq_ok h
  cases hrest
  refine ⟨read, rfl, fun e he => ?_⟩
  rw [Slot.portEdges, hedges] at he
  change e ∈ edges at he
  cases edges with
  | nil => cases he
  | cons first others => exact exists_of_mapM_eq_ok hread he

end Inversion

section Nexus

variable {n : NodeId} {name : String} {mode : GroupMode} {protocol : Protocol} {count : Nat}
  {policy : Policy} {values : List Parameter}

theorem nexus_ok (hwf : w.WellFormed) {direction : Direction}
    (hnode : w.node? n = some (.nexus name mode protocol count policy))
    (h : w.evaluate memo (direction.key n) = .ok values) :
    ∃ read feedback, (∀ e ∈ w.portEdges ⟨n, direction.arrival, 0⟩, ∃ value ∈ read,
      w.readEdge memo direction (direction = mode.forward) e = .ok value) ∧
      (if direction = mode.forward then (Readings.single ⟨[read], feedback⟩ 0).map ([·])
        else (Node.aggregate policy read).map ([·])) = .ok values := by
  obtain ⟨slot, hslot, hslotNode⟩ := node?_eq_some.mp hnode
  have hedges : ∀ side, w.portEdges ⟨n, side, 0⟩ = slot.portEdges side 0 := fun side => by
    rw [portEdges, hslot]
    rfl
  have hread : ∀ {side resolved gathered}, w.gather memo slot side direction resolved = .ok gathered →
      ∃ read, gathered = [read] ∧ ∀ e ∈ slot.portEdges side 0,
        ∃ value ∈ read, w.readEdge memo direction resolved e = .ok value := by
    intro side resolved gathered hgathered
    have hports : ∃ spec, slot.ports side = [spec] := by
      rw [Slot.ports, hslotNode]
      cases mode <;> cases side <;> exact ⟨_, rfl⟩
    obtain ⟨spec, hspec⟩ := hports
    exact gather_ok hspec (hwf.tabled hslot side) hgathered
  rw [hedges]
  cases direction with
  | down =>
      have hreads : slot.node.flow.downReadsInward = true := by
        rw [hslotNode]
        cases mode <;> rfl
      obtain ⟨gathered, feedback, hgathered, hemitted⟩ := evaluate_down_ok hslot hreads h
      obtain ⟨read, rfl, hin⟩ := hread hgathered
      rw [hslotNode] at hin hemitted
      cases mode with
      | fanOut => exact ⟨read, feedback, hin, hemitted⟩
      | fanIn => exact ⟨read, feedback, hin, hemitted⟩
  | up =>
      have hreads : slot.node.flow.upReadsOutward = true := by
        rw [hslotNode]
        cases mode <;> rfl
      obtain ⟨gathered, feedback, hgathered, hemitted⟩ := evaluate_up_ok hslot hreads h
      obtain ⟨read, rfl, hin⟩ := hread hgathered
      rw [hslotNode] at hin hemitted
      cases mode with
      | fanOut => exact ⟨read, feedback, hin, hemitted⟩
      | fanIn => exact ⟨read, feedback, hin, hemitted⟩

theorem arrival_forward (mode : GroupMode) : mode.forward.arrival = mode.manySide := by
  cases mode <;> rfl

theorem arrival_backward (mode : GroupMode) : mode.backward.arrival = mode.singleSide := by
  cases mode <;> rfl

theorem backward_ne_forward (mode : GroupMode) : mode.backward ≠ mode.forward := by
  cases mode <;> decide

theorem single_ok {read : List Parameter} {feedback : List (List Parameter)} {value : Parameter}
    (h : Readings.single ⟨[read], feedback⟩ 0 = .ok value) : read = [value] := by
  rw [Readings.single] at h
  split at h
  · rename_i found hport
    rw [← Except.ok.inj h]
    exact hport
  · cases h
  · cases h

/-- The nexus hands the settled trunk on. -/
theorem nexus_forward (hwf : w.WellFormed)
    (hnode : w.node? n = some (.nexus name mode protocol count policy))
    (h : w.evaluate memo (mode.forward.key n) = .ok values) {trunk : EdgeId}
    (htrunk : trunk ∈ w.portEdges ⟨n, mode.manySide, 0⟩) :
    ∃ value, values = [value] ∧ memo.settled? trunk = some value := by
  obtain ⟨read, feedback, hread, hvalues⟩ := nexus_ok hwf hnode h
  rw [arrival_forward] at hread
  rw [if_pos rfl] at hvalues
  obtain ⟨value, hsingle, rfl⟩ := exists_of_map_eq_ok hvalues
  obtain ⟨found, hfound, hsettled⟩ := hread trunk htrunk
  simp only [decide_true, readEdge, ↓reduceIte] at hsettled
  rw [single_ok hsingle, List.mem_singleton] at hfound
  split at hsettled
  · rename_i settled hmemo
    refine ⟨value, rfl, ?_⟩
    rw [hmemo, Except.ok.inj hsettled, hfound]
  · cases hsettled

/-- The nexus reduces what comes from the branches. -/
theorem nexus_backward (hwf : w.WellFormed)
    (hnode : w.node? n = some (.nexus name mode protocol count policy))
    (h : w.evaluate memo (mode.backward.key n) = .ok values) :
    ∃ read value, values = [value] ∧ policy.reduce read = .ok value ∧
      ∀ e ∈ w.portEdges ⟨n, mode.singleSide, 0⟩, ∃ asked ∈ read,
        w.readEdge memo mode.backward false e = .ok asked := by
  obtain ⟨read, feedback, hread, hvalues⟩ := nexus_ok hwf hnode h
  rw [arrival_backward] at hread
  rw [if_neg (backward_ne_forward mode)] at hvalues
  obtain ⟨value, hreduce, rfl⟩ := exists_of_map_eq_ok hvalues
  simp only [backward_ne_forward, decide_false] at hread
  exact ⟨read, value, rfl, mapError_eq_ok_iff.mp hreduce, hread⟩

end Nexus

end Wiring

namespace Graph

section Branches

variable {w : Wiring} {memo : Memo} {group : FanGroup} {protocol : Protocol} {bound : BoundGroup}
  {values : List Parameter}

theorem get_of_values? {key : FlowKey} (h : memo.values? key = some values) :
    memo.get key = .resolved values := by
  rw [Memo.values?] at h
  cases hget : memo.get key with
  | resolved found =>
      rw [hget] at h
      rw [Option.some.inj h]
  | unresolved => rw [hget] at h; cases h
  | resolving => rw [hget] at h; cases h
  | failed error => rw [hget] at h; cases h

/-- What comes from the nexus along a branch, and along the trunk. -/
theorem emitter_branchEdge (group : FanGroup) (protocol : Protocol) (nexus : NodeId) (port : Port)
    (e : EdgeId) :
    Wiring.emitter (group.branchEdge protocol nexus port e) group.mode.forward =
        group.mode.forward.key nexus ∧
      ((group.branchEdge protocol nexus port e).origin group.mode.forward).index = 0 := by
  obtain ⟨mode, single, many, policy, pre, post⟩ := group
  cases mode <;> exact ⟨rfl, rfl⟩

theorem emitter_trunkEdge (group : FanGroup) (protocol : Protocol) (nexus : NodeId) (e : EdgeId) :
    Wiring.emitter (group.trunkEdge protocol nexus e) group.mode.backward =
        group.mode.backward.key nexus ∧
      ((group.trunkEdge protocol nexus e).origin group.mode.backward).index = 0 := by
  obtain ⟨mode, single, many, policy, pre, post⟩ := group
  cases mode <;> exact ⟨rfl, rfl⟩

theorem HasGroup.trunk_mem (hgroup : HasGroup w group protocol bound) (hwf : w.WellFormed) :
    bound.trunk ∈ w.portEdges (group.trunkPort bound.nexus) := by
  refine hwf.attached.mpr ⟨_, hgroup.trunk, ?_⟩
  obtain ⟨mode, single, many, policy, pre, post⟩ := group
  cases mode with
  | fanOut => exact Or.inr rfl
  | fanIn => exact Or.inl rfl

theorem HasGroup.exists_branch (hgroup : HasGroup w group protocol bound) {e : EdgeId}
    (he : e ∈ bound.branches) :
    ∃ port, w.edge? e = some (group.branchEdge protocol bound.nexus port e) := by
  have hbranches := hgroup.branches
  generalize bound.branches = branches at he hbranches
  generalize group.many = many at hbranches
  induction hbranches with
  | nil => cases he
  | @cons first port _ _ hfirst _ ih =>
      rcases List.mem_cons.mp he with rfl | hmem
      · exact ⟨port, hfirst⟩
      · exact ih hmem

theorem HasGroup.branch_mem (hgroup : HasGroup w group protocol bound) (hwf : w.WellFormed)
    {e : EdgeId} (he : e ∈ bound.branches) :
    e ∈ w.portEdges (group.branchPort bound.nexus) := by
  obtain ⟨port, hedge⟩ := hgroup.exists_branch he
  refine hwf.attached.mpr ⟨_, hedge, ?_⟩
  obtain ⟨mode, single, many, policy, pre, post⟩ := group
  cases mode with
  | fanOut => exact Or.inl rfl
  | fanIn => exact Or.inr rfl

/-- An edge of a group settles what comes from the two sides of the group. -/
theorem evaluate_group_edge (mode : GroupMode) {e : EdgeId} {edge : Edge}
    (hedge : w.edge? e = some edge) (h : w.evaluate memo (.edge e) = .ok values) :
    ∃ single many value, values = [value] ∧
      Wiring.flows memo edge = .ok (mode.sides single many) ∧
      Wiring.crossing memo edge mode.forward = .ok single ∧
      Wiring.crossing memo edge mode.backward = .ok many ∧
      (edge.rule.merge single many = .ok value ∨ edge.rule.merge many single = .ok value) := by
  obtain ⟨down, up, value, rfl, hflows, hdown, hup, hmerge⟩ := Wiring.evaluate_edge_ok hedge h
  cases mode with
  | fanOut => exact ⟨down, up, value, rfl, hflows, hdown, hup, Or.inl hmerge⟩
  | fanIn => exact ⟨up, down, value, rfl, hflows, hup, hdown, Or.inr hmerge⟩

variable (hwf : w.WellFormed) (hconsistent : memo.Consistent w)
  (hgroup : HasGroup w group protocol bound)

include hwf hconsistent hgroup

/-- A branch that has settled merges the value of the trunk with what comes from its own port. -/
theorem branch_resolved (hadapter : group.branchAdapter = .identity) {e : EdgeId}
    (he : e ∈ bound.branches) (hget : memo.get (.edge e) = .resolved values) :
    ∃ edge agreed asked value, w.edge? e = some edge ∧ values = [value] ∧
      memo.settled? bound.trunk = some agreed ∧
      Wiring.flows memo edge = .ok (group.mode.sides agreed asked) ∧
      Wiring.crossing memo edge group.mode.backward = .ok asked ∧
      (group.policy.merge agreed asked = .ok value ∨
        group.policy.merge asked agreed = .ok value) := by
  obtain ⟨port, hedge⟩ := hgroup.exists_branch he
  obtain ⟨name, hnexus⟩ := hgroup.nexus
  obtain ⟨single, asked, value, rfl, hflows, hsingle, hmany, hmerge⟩ :=
    evaluate_group_edge group.mode hedge (hconsistent.evaluate_of_resolved hget).2
  obtain ⟨emittedValues, emitted, hvalues, hindex, happly⟩ := Wiring.crossing_ok hsingle
  obtain ⟨hemitter, horigin⟩ := emitter_branchEdge group protocol bound.nexus port e
  rw [hemitter] at hvalues
  rw [horigin] at hindex
  obtain ⟨agreed, rfl, hsettled⟩ := Wiring.nexus_forward hwf hnexus
    (hconsistent.evaluate_of_resolved (get_of_values? hvalues)).2 (hgroup.trunk_mem hwf)
  have hsame : single = agreed := by
    change group.branchAdapter.apply _ _ = _ at happly
    rw [hadapter, Adapter.apply_identity] at happly
    rw [← Except.ok.inj happly]
    exact (Option.some.inj hindex).symm
  subst hsame
  exact ⟨_, single, asked, value, hedge, rfl, hsettled, hflows, hmany, hmerge⟩

/-- A trunk that has settled merges what comes from the single port with what the nexus makes of what
comes from the branches. -/
theorem trunk_resolved {agreed : Parameter} (h : memo.settled? bound.trunk = some agreed) :
    ∃ offered many reduced read,
      (protocol.merge.merge offered many = .ok agreed ∨
        protocol.merge.merge many offered = .ok agreed) ∧
      group.trunkAdapter.apply group.mode.backward reduced = .ok many ∧
      group.policy.reduce read = .ok reduced ∧
      ∀ e ∈ bound.branches, ∀ edge, w.edge? e = some edge →
        ∃ asked ∈ read, Wiring.crossing memo edge group.mode.backward = .ok asked := by
  obtain ⟨name, hnexus⟩ := hgroup.nexus
  obtain ⟨trunkValues, htrunk, hhead⟩ := Option.bind_eq_some_iff.mp h
  obtain ⟨offered, many, value, rfl, _, _, hmany, hmerge⟩ := evaluate_group_edge group.mode
    hgroup.trunk (hconsistent.evaluate_of_resolved (get_of_values? htrunk)).2
  obtain rfl : value = agreed := Option.some.inj hhead
  obtain ⟨emittedValues, emitted, hvalues, hindex, happly⟩ := Wiring.crossing_ok hmany
  obtain ⟨hemitter, horigin⟩ := emitter_trunkEdge group protocol bound.nexus bound.trunk
  rw [hemitter] at hvalues
  rw [horigin] at hindex
  obtain ⟨read, reduced, rfl, hreduce, hread⟩ := Wiring.nexus_backward hwf hnexus
    (hconsistent.evaluate_of_resolved (get_of_values? hvalues)).2
  obtain rfl : reduced = emitted := Option.some.inj hindex
  refine ⟨offered, many, reduced, read, hmerge, happly, hreduce, fun e he edge hedge => ?_⟩
  obtain ⟨asked, hasked, hcrossing⟩ := hread e (hgroup.branch_mem hwf he)
  rw [Wiring.readEdge, if_neg Bool.false_ne_true, hedge] at hcrossing
  exact ⟨asked, hasked, hcrossing⟩

end Branches

section Requests

variable {g built : Graph} {group : FanGroup} {bound : BoundGroup}

/-- A branch of a group has the value of the trunk if and only if the policy of the group keeps what
the branch asks for; it does so unless the policies of the group and of the protocol oppose one
another, or the adapter of the trunk changes what the nexus makes of the branches. -/
theorem branch_value (hg : g.Reachable) (hbind : g.bindGroup group = (.ok bound, built))
    (hadapter : group.branchAdapter = .identity) {spec : PortSpec} {policy : Policy}
    (hspec : g.portSpec group.single = .ok spec) (hmerge : spec.protocol.merge = .policy policy)
    (requests : List Request) {e : EdgeId} (he : e ∈ bound.branches) :
    ((∃ c : Call, .call c ∈ requests ∧ c.Demands e) →
        (built.serves requests).progress (.edge e) = .resolved ∨
          (built.serves requests).progress (.edge e) = .failed) ∧
      ∀ value, (built.serves requests).resolved? e = some value →
        ∃ edge agreed asked, (built.serves requests).wiring.edge? e = some edge ∧
          (built.serves requests).flows? edge = some (group.mode.sides agreed asked) ∧
          (built.serves requests).resolved? bound.trunk = some agreed ∧
          ((group.policy = .intersect → agreed.Regular ∧ asked.Regular) →
            (value = agreed ↔ group.policy.Keeps agreed asked)) ∧
          (policy.opposes group.policy = false →
            group.trunkAdapter.transform? group.mode.backward = none →
              group.policy.Keeps agreed asked) := by
  have hbuilt : built = g.serve (.build (.bindGroup group)) := by
    rw [serve, build, hbind]
  obtain ⟨spec', hspec', hbound⟩ := g.bindGroup_ok hg.sound.wellFormed hbind
  obtain rfl : spec = spec' := Option.some.inj ((portSpec_ok hspec).symm.trans hspec')
  have hreachable : built.Reachable := hbuilt ▸ hg.serve _
  obtain ⟨hsound, hextends, hterminal⟩ := hreachable.sound.serves requests
  have hgroup := hbound.extends hextends
  obtain ⟨port, hedge⟩ := hbound.exists_branch he
  have hkey := Wiring.HasKey.of_edge? hedge
  have hkey' := hextends.hasKey hkey
  refine ⟨fun hdemanded => ?_, fun value hvalue => ?_⟩
  · rw [progress_eq hkey']
    rcases Entry.isTerminal_iff.mp (hterminal e hkey (Or.inr hdemanded)) with
      ⟨values, hentry⟩ | ⟨error, hentry⟩
    · rw [hentry]
      exact Or.inl rfl
    · rw [hentry]
      exact Or.inr rfl
  · rw [resolved?_eq hkey'] at hvalue
    obtain ⟨values, hvalues, hhead⟩ := Option.bind_eq_some_iff.mp hvalue
    have hconsistent := hsound.settled.consistent
    obtain ⟨edge, agreed, asked, value', hedge', rfl, htrunk, hflows, hasked, hmerged⟩ :=
      branch_resolved hsound.wellFormed hconsistent hgroup hadapter he (get_of_values? hvalues)
    obtain rfl : value' = value := Option.some.inj hhead
    obtain ⟨offered, many, reduced, read, hagreed, hcrosses, hreduce, hread⟩ :=
      trunk_resolved hsound.wellFormed hconsistent hgroup htrunk
    rw [hmerge] at hagreed
    have hsettled : agreed.isConcrete = true :=
      hagreed.elim Policy.isConcrete_of_merge Policy.isConcrete_of_merge
    refine ⟨edge, agreed, asked, hedge', ?_, ?_, fun hregular => ?_, fun hopposes hsilent => ?_⟩
    · rw [flows?_eq, hflows]
      rfl
    · rw [resolved?_eq (Wiring.HasKey.of_edge? hgroup.trunk)]
      exact htrunk
    · exact Policy.merge_eq_iff_keeps hsettled hregular hmerged
    · obtain ⟨found, hfound, hcrossing⟩ := hread e he edge hedge'
      obtain rfl : asked = found := Except.ok.inj (hasked.symm.trans hcrossing)
      obtain ⟨hconcrete, hkeeps⟩ := Policy.keeps_of_reduce hreduce
      have hsame : reduced = many := by
        rw [Adapter.apply, hsilent] at hcrosses
        exact Except.ok.inj hcrosses
      subst hsame
      exact (Policy.keeps_of_merge_of_opposes hopposes hconcrete hagreed.symm).trans
        (hkeeps asked hfound)

end Requests

/-- A source and two sinks whose protocol takes the smaller number. -/
def tug : Graph :=
  let width : Schema := .ofList [("width", .number)]
  let bus : Protocol := ⟨⟨"bus", width, width⟩, .policy .minimum, .absent, .absent⟩
  after {} [.build (.addNode (.source "cpu" bus (.exactly 1) (.ofList [("width", .num 4)]))),
    .build (.addNode (.sink "ram" bus (.exactly 1) (.ofList [("width", .num 8)]))),
    .build (.addNode (.sink "rom" bus (.exactly 1) (.ofList [("width", .num 16)])))]

/-- A fan-out that takes the larger number. -/
def pull : FanGroup :=
  ⟨.fanOut, NodeId.output ⟨0⟩ 0, [NodeId.input ⟨1⟩ 0, NodeId.input ⟨2⟩ 0], .maximum, .identity,
    .identity⟩

theorem bindGroup_pull : tug.bindGroup pull =
    (.ok ⟨⟨3⟩, ⟨0⟩, [⟨1⟩, ⟨2⟩]⟩, (tug.bindGroup pull).2) :=
  Prod.ext (by decide) rfl

/-- The branches of one group settle to different values, neither of which is that of the trunk. -/
theorem tug_branches_differ :
    tug.Reachable ∧ (tug.bindGroup pull).1 = .ok ⟨⟨3⟩, ⟨0⟩, [⟨1⟩, ⟨2⟩]⟩ ∧
      [⟨0⟩, ⟨1⟩, ⟨2⟩].map (((tug.bindGroup pull).2.serves [.call .resolveAll]).resolved?) =
        [some (.ofList [("width", .num 4)]), some (.ofList [("width", .num 8)]),
          some (.ofList [("width", .num 16)])] :=
  ⟨reachable_after _ _, by decide, by decide⟩

/-- The first branch has another value than the trunk, because what it asks for is not kept. -/
theorem tug_branch_value :
    tug.Reachable ∧ pull.branchAdapter = .identity ∧
      ∃ agreed asked, ((tug.bindGroup pull).2.serves [.call .resolveAll]).resolved? ⟨0⟩ = some agreed ∧
        ¬ Policy.maximum.Keeps agreed asked := by
  have htug : tug.Reachable := reachable_after _ _
  obtain ⟨_, hvalues⟩ := branch_value (e := ⟨1⟩) htug bindGroup_pull rfl rfl rfl
    [.call .resolveAll] List.mem_cons_self
  obtain ⟨_, agreed, asked, _, _, hagreed, hiff, _⟩ :=
    hvalues (.ofList [("width", .num 8)]) (by decide)
  refine ⟨htug, rfl, agreed, asked, hagreed, fun hkeeps => ?_⟩
  have hsame := (hiff nofun).mpr hkeeps
  have htrunk : ((tug.bindGroup pull).2.serves [.call .resolveAll]).resolved? ⟨0⟩ =
      some (.ofList [("width", .num 4)]) := by decide
  rw [htrunk] at hagreed
  cases hagreed
  exact absurd hsame (by decide)

end Graph

end Negotiation
