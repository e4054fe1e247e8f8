import Mathlib.Data.List.Chain
import Mathlib.Data.List.Rotate
import Negotiation.Proofs.Dependency

/-!
The outcome of a key, told without an order of demands.

A key is resolvable if its dependencies are and its evaluation accepts their values
(`Wiring.Yields`).  Any other key blames the first dependency that is not resolvable, or refuses the
values of its dependencies itself.  Following the blame leads to one refusal, or into one circle;
so the failure of a key is determined, a circle up to the key with which its chain starts
(`Wiring.Faults.agrees`).
-/

namespace Negotiation

/-- The chain that runs through these keys and back to the first. -/
def Cycle.around (keys : List FlowKey) : Cycle :=
  ⟨keys ++ keys.head?.toList⟩

theorem Cycle.around_injective : Function.Injective Cycle.around := by
  intro left right h
  have hchain : left ++ left.head?.toList = right ++ right.head?.toList := congrArg Cycle.chain h
  cases left with
  | nil => cases right with
    | nil => rfl
    | cons key rest => simp at hchain
  | cons key rest => cases right with
    | nil => simp at hchain
    | cons other others =>
        have hdrop := congrArg List.dropLast hchain
        simpa only [List.head?_cons, Option.toList_some, List.dropLast_concat] using hdrop

/-- Two chains run around the same circle, perhaps from different keys on. -/
def Cycle.Agrees (c d : Cycle) : Prop :=
  ∃ keys others, c = .around keys ∧ d = .around others ∧ keys ~r others

theorem Cycle.Agrees.symm {c d : Cycle} : c.Agrees d → d.Agrees c := by
  rintro ⟨keys, others, hc, hd, hrotated⟩
  exact ⟨others, keys, hd, hc, hrotated.symm⟩

theorem Cycle.Agrees.trans {c d f : Cycle} : c.Agrees d → d.Agrees f → c.Agrees f := by
  rintro ⟨keys, others, hc, hd, hrotated⟩ ⟨others', last, hd', hf, hrotated'⟩
  have hothers : others = others' := Cycle.around_injective (hd.symm.trans hd')
  subst hothers
  exact ⟨keys, last, hc, hf, hrotated.trans hrotated'⟩

/-- A key of one chain is a key of the other. -/
theorem Cycle.Agrees.mem_chain {c d : Cycle} (h : c.Agrees d) {key : FlowKey}
    (hkey : key ∈ c.chain) : key ∈ d.chain := by
  obtain ⟨keys, others, rfl, rfl, hrotated⟩ := h
  have hmem : key ∈ keys := by
    rcases List.mem_append.mp hkey with hkeys | hhead
    · exact hkeys
    · exact List.mem_of_mem_head? (Option.mem_toList.mp hhead)
  exact List.mem_append_left _ (hrotated.mem_iff.mp hmem)

/-- The same failure, where the chain of a circle may start with another key. -/
inductive ResolveError.Agrees : ResolveError → ResolveError → Prop
  | mismatch (m : Mismatch) : Agrees (.mismatch m) (.mismatch m)
  | cycle {c d : Cycle} (h : c.Agrees d) : Agrees (.cycle c) (.cycle d)

theorem ResolveError.Agrees.symm {e f : ResolveError} (h : e.Agrees f) : f.Agrees e := by
  cases h with
  | mismatch m => exact .mismatch m
  | cycle h => exact .cycle h.symm

theorem ResolveError.Agrees.trans {e f g : ResolveError} (h : e.Agrees f) (h' : f.Agrees g) :
    e.Agrees g := by
  cases h with
  | mismatch m => exact h'
  | cycle h => cases h' with
    | cycle h' => exact .cycle (h.trans h')

/-- A chain of a relation that leaves no choice is determined by where it starts and where it first
ends. -/
theorem eq_of_isChain_of_rightUnique {α : Type} {r : α → α → Prop} (hr : Relator.RightUnique r)
    {start last : α} {left right : List α}
    (hleft : (start :: (left ++ [last])).IsChain r) (hright : (start :: (right ++ [last])).IsChain r)
    (hnotLeft : last ∉ left) (hnotRight : last ∉ right) : left = right := by
  induction left generalizing start right with
  | nil => cases right with
    | nil => rfl
    | cons next others =>
        have hlast : r start last := hleft.rel_head? rfl
        have hnext : r start next := hright.rel_head? rfl
        exact absurd (hr hlast hnext) (List.ne_of_not_mem_cons hnotRight)
  | cons next rest ih => cases right with
    | nil =>
        have hnext : r start next := hleft.rel_head? rfl
        have hlast : r start last := hright.rel_head? rfl
        exact absurd (hr hlast hnext) (List.ne_of_not_mem_cons hnotLeft)
    | cons other others =>
        have hnext : r start next := hleft.rel_head? rfl
        have hother : r start other := hright.rel_head? rfl
        obtain rfl := hr hnext hother
        rw [ih hleft.tail hright.tail (List.not_mem_of_not_mem_cons hnotLeft)
          (List.not_mem_of_not_mem_cons hnotRight)]

namespace Wiring

open Relation

variable {w : Wiring}

/-- The memo shows these values for these keys. -/
def Holds (memo : Memo) (keys : List FlowKey) (values : FlowKey → List Parameter) : Prop :=
  ∀ key ∈ keys, memo.get key = .resolved (values key)

/-- Two memos that show the same values for the dependencies of a key evaluate it alike. -/
theorem evaluate_eq_of_holds {left right : Memo} {key : FlowKey} {values : FlowKey → List Parameter}
    (hleft : Holds left (w.dependencies key) values)
    (hright : Holds right (w.dependencies key) values) :
    w.evaluate left key = w.evaluate right key :=
  evaluate_congr fun dependency hd => by
    simp only [Memo.values?, hleft dependency hd, hright dependency hd]

/-- A key resolves to some values: its dependencies resolve, and its evaluation accepts what they
resolve to. -/
inductive Yields (w : Wiring) : FlowKey → List Parameter → Prop
  | evaluated {key : FlowKey} {out : List Parameter} (memo : Memo)
      (values : FlowKey → List Parameter)
      (holds : Holds memo (w.dependencies key) values)
      (yields : ∀ dependency ∈ w.dependencies key, Yields w dependency (values dependency))
      (result : w.evaluate memo key = .ok out) : Yields w key out

/-- A key resolves to at most one list of values. -/
theorem Yields.unique {key : FlowKey} {out other : List Parameter} (h : Yields w key out)
    (h' : Yields w key other) : out = other := by
  induction h generalizing other with
  | @evaluated key out memo values holds _ result ih =>
      cases h' with
      | evaluated memo' values' holds' yields' result' =>
          have hsame : Holds memo' (w.dependencies key) values := fun d hd => by
            rw [holds' d hd, ih d hd (yields' d hd)]
          have heval := evaluate_eq_of_holds holds hsame
          rw [result, result'] at heval
          exact Except.ok.inj heval

/-- The memo shows for every dependency of a key the values that it resolves to. -/
def Supports (w : Wiring) (memo : Memo) (key : FlowKey) : Prop :=
  ∀ dependency ∈ w.dependencies key,
    ∃ values, memo.get dependency = .resolved values ∧ w.Yields dependency values

theorem Supports.holds {memo : Memo} {key : FlowKey} (h : w.Supports memo key) :
    ∃ values, Holds memo (w.dependencies key) values ∧
      ∀ dependency ∈ w.dependencies key, w.Yields dependency (values dependency) := by
  have hvalues : ∀ dependency ∈ w.dependencies key,
      memo.get dependency = .resolved ((memo.values? dependency).getD []) ∧
        w.Yields dependency ((memo.values? dependency).getD []) := by
    intro dependency hd
    obtain ⟨values, hget, hyields⟩ := h dependency hd
    simp only [Memo.values?, hget, Entry.values?, Option.getD_some]
    exact ⟨trivial, hyields⟩
  exact ⟨fun key => (memo.values? key).getD [], fun d hd => (hvalues d hd).1,
    fun d hd => (hvalues d hd).2⟩

theorem Supports.yields {memo : Memo} {key : FlowKey} {out : List Parameter}
    (h : w.Supports memo key) (result : w.evaluate memo key = .ok out) : w.Yields key out := by
  obtain ⟨values, hholds, hyields⟩ := h.holds
  exact .evaluated memo values hholds hyields result

theorem Supports.values?_eq {memo other : Memo} {key : FlowKey} (h : w.Supports memo key)
    (h' : w.Supports other key) {dependency : FlowKey} (hd : dependency ∈ w.dependencies key) :
    memo.values? dependency = other.values? dependency := by
  obtain ⟨values, hget, hyields⟩ := h dependency hd
  obtain ⟨values', hget', hyields'⟩ := h' dependency hd
  simp only [Memo.values?, hget, hget', hyields.unique hyields']

/-- Evaluation of a supported key does not depend on the memo that supports it. -/
theorem Supports.evaluate_eq {memo other : Memo} {key : FlowKey} (h : w.Supports memo key)
    (h' : w.Supports other key) : w.evaluate memo key = w.evaluate other key :=
  evaluate_congr fun _ hd => h.values?_eq h' hd

/-- A key that resolves to some values. -/
def Resolvable (w : Wiring) (key : FlowKey) : Prop :=
  ∃ values, w.Yields key values

/-- A key all of whose dependencies are resolvable. -/
def Ready (w : Wiring) (key : FlowKey) : Prop :=
  ∀ dependency ∈ w.dependencies key, w.Resolvable dependency

theorem Supports.ready {memo : Memo} {key : FlowKey} (h : w.Supports memo key) : w.Ready key :=
  fun dependency hd => (h dependency hd).imp fun _ h => h.2

theorem Resolvable.ready {key : FlowKey} (h : w.Resolvable key) : w.Ready key := by
  obtain ⟨_, hyields⟩ := h
  cases hyields with
  | evaluated memo values _ yields _ => exact fun dependency hd => ⟨_, yields dependency hd⟩

theorem Resolvable.of_transGen {key other : FlowKey} (h : w.Resolvable key)
    (hpath : TransGen w.Needs key other) : w.Resolvable other := by
  induction hpath with
  | single hstep => exact h.ready _ hstep
  | tail _ hstep ih => exact ih.ready _ hstep

theorem Yields.not_transGen_self {key : FlowKey} {out : List Parameter} (h : w.Yields key out) :
    ¬ TransGen w.Needs key key := by
  induction h with
  | evaluated _ _ _ _ _ ih =>
      intro hloop
      obtain ⟨dependency, hstep, hback⟩ := TransGen.head'_iff.mp hloop
      exact ih dependency hstep (TransGen.tail' hback hstep)

/-- No resolvable key depends on itself. -/
theorem Resolvable.not_transGen_self {key : FlowKey} (h : w.Resolvable key) :
    ¬ TransGen w.Needs key key := by
  obtain ⟨_, hyields⟩ := h
  exact hyields.not_transGen_self

/-- A key accepts what its dependencies resolve to, or refuses it with a failure of its own. -/
def Refuses (w : Wiring) (key : FlowKey) (error : ResolveError) : Prop :=
  ∃ memo, w.Supports memo key ∧ w.evaluate memo key = .error error

/-- The second key is the first dependency of the first that is not resolvable. -/
def Blames (w : Wiring) (key dependency : FlowKey) : Prop :=
  ∃ before after, w.dependencies key = before ++ dependency :: after ∧
    (∀ earlier ∈ before, w.Resolvable earlier) ∧ ¬ w.Resolvable dependency

/-- The second key is a dependency of the first, and all dependencies before it are resolvable. -/
def Touches (w : Wiring) (key dependency : FlowKey) : Prop :=
  ∃ before after, w.dependencies key = before ++ dependency :: after ∧
    ∀ earlier ∈ before, w.Resolvable earlier

theorem Touches.needs {key dependency : FlowKey} (h : w.Touches key dependency) :
    w.Needs key dependency := by
  obtain ⟨before, after, hdeps, _⟩ := h
  rw [Needs, hdeps]
  exact List.mem_append_right _ List.mem_cons_self

theorem Blames.touches {key dependency : FlowKey} (h : w.Blames key dependency) :
    w.Touches key dependency := by
  obtain ⟨before, after, hdeps, hbefore, _⟩ := h
  exact ⟨before, after, hdeps, hbefore⟩

/-- What a key touches is among the dependencies before the one that it blames, or is that one. -/
theorem Touches.mem_before_or_eq {key touched blamed : FlowKey} {before after : List FlowKey}
    (h : w.Touches key touched) (hdeps : w.dependencies key = before ++ blamed :: after)
    (hblamed : ¬ w.Resolvable blamed) : touched ∈ before ∨ touched = blamed := by
  obtain ⟨earlier, later, hdeps', hearlier⟩ := h
  rw [hdeps] at hdeps'
  rcases List.append_eq_append_iff.mp hdeps' with ⟨between, hsplit, hrest⟩ | ⟨between, hsplit, hrest⟩
  · -- the blamed key stands among those before the touched one, or is it
    cases between with
    | nil => exact Or.inr (List.cons.inj hrest).1.symm
    | cons first others =>
        have hfirst : blamed = first := (List.cons.inj hrest).1
        have hmem : blamed ∈ earlier := by simp [hsplit, hfirst]
        exact absurd (hearlier blamed hmem) hblamed
  · cases between with
    | nil => exact Or.inr (List.cons.inj hrest).1
    | cons first others =>
        have hfirst : touched = first := (List.cons.inj hrest).1
        exact Or.inl (by simp [hsplit, hfirst])

theorem blames_rightUnique : Relator.RightUnique w.Blames := by
  intro key blamed other ⟨before, after, hdeps, hbefore, hblamed⟩ hother
  rcases hother.touches.mem_before_or_eq hdeps hblamed with hmem | heq
  · obtain ⟨_, _, _, _, hnot⟩ := hother
    exact absurd (hbefore other hmem) hnot
  · exact heq.symm

theorem Blames.not_ready {key blamed : FlowKey} (h : w.Blames key blamed) : ¬ w.Ready key := by
  intro hready
  obtain ⟨_, _, _, _, hnot⟩ := id h
  exact hnot (hready blamed h.touches.needs)

/-- The chain of `c` starts with `key` and follows the blame until it is back for the first time. -/
def Closes (w : Wiring) (key : FlowKey) (c : Cycle) : Prop :=
  ∃ rest, c = .around (key :: rest) ∧ (key :: rest).Nodup ∧ c.chain.IsChain w.Blames

theorem Closes.unique {key : FlowKey} {c d : Cycle} (h : w.Closes key c) (h' : w.Closes key d) :
    c = d := by
  obtain ⟨rest, rfl, hnodup, hchain⟩ := h
  obtain ⟨rest', rfl, hnodup', hchain'⟩ := h'
  rw [eq_of_isChain_of_rightUnique blames_rightUnique hchain hchain' (List.nodup_cons.mp hnodup).1
    (List.nodup_cons.mp hnodup').1]

theorem Closes.exists_blames {key : FlowKey} {c : Cycle} (h : w.Closes key c) :
    ∃ next, w.Blames key next := by
  obtain ⟨rest, rfl, _, hchain⟩ := h
  cases rest with
  | nil => exact ⟨key, hchain.rel_head? rfl⟩
  | cons next others => exact ⟨next, hchain.rel_head? rfl⟩

theorem Closes.agrees_refl {key : FlowKey} {c : Cycle} (h : w.Closes key c) : c.Agrees c := by
  obtain ⟨rest, rfl, _, _⟩ := h
  exact ⟨_, _, rfl, rfl, .refl _⟩

/-- The circle can be entered one key later. -/
theorem Closes.next {key next : FlowKey} {c : Cycle} (h : w.Closes key c)
    (hnext : w.Blames key next) : ∃ d, w.Closes next d ∧ c.Agrees d := by
  obtain ⟨rest, rfl, hnodup, hchain⟩ := h
  cases rest with
  | nil =>
      have hself : w.Blames key key := hchain.rel_head? rfl
      obtain rfl := blames_rightUnique hself hnext
      exact ⟨_, ⟨[], rfl, hnodup, hchain⟩, _, _, rfl, rfl, .refl _⟩
  | cons second others =>
      have hsecond : w.Blames key second := hchain.rel_head? rfl
      obtain rfl := blames_rightUnique hsecond hnext
      have hrotated : (key :: second :: others) ~r (second :: (others ++ [key])) :=
        (List.isRotated_concat key (second :: others)).symm
      have hturned : ((second :: (others ++ [key])) ++ [second]).IsChain w.Blames := by
        have htail : (second :: (others ++ [key])).IsChain w.Blames := hchain.tail
        refine List.isChain_append.mpr ⟨htail, List.isChain_singleton _, ?_⟩
        intro last hlast first hfirst
        have hkey : last = key := by
          have hconcat : (second :: (others ++ [key])).getLast? = some key := by
            rw [← List.cons_append, List.getLast?_concat]
          exact (Option.some.inj (hconcat.symm.trans hlast)).symm
        have hsame : first = second := (Option.some.inj hfirst).symm
        rw [hkey, hsame]
        exact hsecond
      exact ⟨.around (second :: (others ++ [key])),
        ⟨others ++ [key], rfl, hrotated.nodup_iff.mp hnodup, hturned⟩, _, _, rfl, rfl, hrotated⟩

/-- The blame leads round a circle. -/
theorem Closes.transGen_blames {key : FlowKey} {c : Cycle} (h : w.Closes key c) :
    TransGen w.Blames key key := by
  obtain ⟨rest, rfl, _, hchain⟩ := h
  have hpath : (key :: (rest ++ [key])).IsChain (TransGen w.Blames) :=
    hchain.imp fun _ _ hblames => .single hblames
  exact hpath.rel_cons (List.mem_append_right _ List.mem_cons_self)

/-- The keys of a circle depend on themselves. -/
theorem Closes.transGen {key : FlowKey} {c : Cycle} (h : w.Closes key c) :
    TransGen w.Needs key key :=
  TransGen.mono (fun _ _ hblames => hblames.touches.needs) _ _ h.transGen_blames

/-- A key fails: it refuses the values of its dependencies, or blames itself round a circle, or
inherits the failure of the dependency that it blames. -/
inductive Faults (w : Wiring) : FlowKey → ResolveError → Prop
  | refuses {key : FlowKey} {error : ResolveError} (h : w.Refuses key error) : Faults w key error
  | closes {key : FlowKey} {c : Cycle} (h : w.Closes key c) : Faults w key (.cycle c)
  | blames {key dependency : FlowKey} {error : ResolveError} (h : w.Blames key dependency)
      (fault : Faults w dependency error) : Faults w key error

/-- A failure starts at this key: it refuses the values of its dependencies, or stands on the
circle. -/
inductive Causes (w : Wiring) (cause : FlowKey) : ResolveError → Prop
  | refuses {error : ResolveError} (h : w.Refuses cause error) : Causes w cause error
  | closes {c : Cycle} (h : w.Closes cause c) : Causes w cause (.cycle c)

theorem needs_of_touches {key other : FlowKey} (h : ReflTransGen w.Touches key other) :
    ReflTransGen w.Needs key other :=
  ReflTransGen.mono (fun _ _ htouches => htouches.needs) _ _ h

theorem touches_of_blames {key other : FlowKey} (h : ReflTransGen w.Blames key other) :
    ReflTransGen w.Touches key other :=
  ReflTransGen.mono (fun _ _ hblames => hblames.touches) _ _ h

theorem needs_of_blames {key other : FlowKey} (h : ReflTransGen w.Blames key other) :
    ReflTransGen w.Needs key other :=
  needs_of_touches (touches_of_blames h)

/-- A key from which the blame leads to the cause of a failure fails with it. -/
theorem Causes.faults {key cause : FlowKey} {error : ResolveError} (h : w.Causes cause error)
    (hpath : ReflTransGen w.Blames key cause) : w.Faults key error := by
  induction hpath using ReflTransGen.head_induction_on with
  | refl =>
      cases h with
      | refuses h => exact .refuses h
      | closes h => exact .closes h
  | head hblames _ ih => exact .blames hblames ih

/-- Following the blame from a key that fails leads to the cause. -/
theorem Faults.exists_causes {key : FlowKey} {error : ResolveError} (h : w.Faults key error) :
    ∃ cause, w.Causes cause error ∧ ReflTransGen w.Blames key cause := by
  induction h with
  | refuses h => exact ⟨_, .refuses h, .refl⟩
  | closes h => exact ⟨_, .closes h, .refl⟩
  | blames hblames _ ih =>
      obtain ⟨cause, hcauses, hpath⟩ := ih
      exact ⟨cause, hcauses, .head hblames hpath⟩

/-- Following the blame from a key that fails with a mismatch leads to the key that refuses. -/
theorem Faults.exists_refuses {key : FlowKey} {m : Mismatch} (h : w.Faults key (.mismatch m)) :
    ∃ culprit, ReflTransGen w.Needs key culprit ∧ w.Refuses culprit (.mismatch m) := by
  obtain ⟨culprit, hcauses, hpath⟩ := h.exists_causes
  cases hcauses with
  | refuses h => exact ⟨culprit, needs_of_blames hpath, h⟩

/-- Following the blame from a key that fails with a circle leads into the circle. -/
theorem Faults.exists_blames_closes {key : FlowKey} {c : Cycle} (h : w.Faults key (.cycle c)) :
    ∃ member, ReflTransGen w.Blames key member ∧ w.Closes member c := by
  obtain ⟨member, hcauses, hpath⟩ := h.exists_causes
  cases hcauses with
  | refuses h =>
      obtain ⟨_, _, hevaluate⟩ := h
      obtain ⟨_, hmismatch⟩ := exists_mismatch_of_evaluate hevaluate
      cases hmismatch
  | closes h => exact ⟨member, hpath, h⟩

/-- A circle that is reported is there, and the key that fails with it leads to it. -/
theorem Faults.exists_path_closes {key : FlowKey} {c : Cycle} (h : w.Faults key (.cycle c)) :
    ∃ member, ReflTransGen w.Needs key member ∧ w.Closes member c := by
  obtain ⟨member, hpath, hcloses⟩ := h.exists_blames_closes
  exact ⟨member, needs_of_blames hpath, hcloses⟩

theorem Faults.exists_closes {key : FlowKey} {c : Cycle} (h : w.Faults key (.cycle c)) :
    ∃ member, w.Closes member c := by
  obtain ⟨member, _, hcloses⟩ := h.exists_path_closes
  exact ⟨member, hcloses⟩

theorem Refuses.not_resolvable {key : FlowKey} {error : ResolveError} (h : w.Refuses key error) :
    ¬ w.Resolvable key := by
  obtain ⟨memo, hsupports, herror⟩ := h
  rintro ⟨out, hyields⟩
  cases hyields with
  | evaluated memo' values holds yields result =>
      have hsupports' : w.Supports memo' key := fun d hd => ⟨values d, holds d hd, yields d hd⟩
      rw [hsupports.evaluate_eq hsupports', result] at herror
      cases herror

theorem Faults.not_resolvable {key : FlowKey} {error : ResolveError} (h : w.Faults key error) :
    ¬ w.Resolvable key := by
  cases h with
  | refuses h => exact h.not_resolvable
  | closes h =>
      obtain ⟨next, hnext⟩ := h.exists_blames
      exact fun hresolvable => hnext.not_ready hresolvable.ready
  | blames h _ => exact fun hresolvable => h.not_ready hresolvable.ready

theorem Refuses.ready {key : FlowKey} {error : ResolveError} (h : w.Refuses key error) :
    w.Ready key := by
  obtain ⟨memo, hsupports, _⟩ := h
  exact hsupports.ready

theorem Refuses.agrees {key : FlowKey} {error other : ResolveError} (h : w.Refuses key error)
    (h' : w.Refuses key other) : error.Agrees other := by
  obtain ⟨memo, hsupports, herror⟩ := h
  obtain ⟨memo', hsupports', hother⟩ := h'
  rw [hsupports.evaluate_eq hsupports', hother] at herror
  cases herror
  obtain ⟨m, rfl⟩ := exists_mismatch_of_evaluate hother
  exact .mismatch m

/-- A key on a circle fails with that circle. -/
theorem Closes.agrees_of_faults {key : FlowKey} {c : Cycle} {error : ResolveError}
    (h : w.Closes key c) (h' : w.Faults key error) : ResolveError.Agrees (.cycle c) error := by
  induction h' generalizing c with
  | refuses h' =>
      obtain ⟨next, hnext⟩ := h.exists_blames
      exact absurd h'.ready hnext.not_ready
  | closes h' =>
      obtain rfl := h.unique h'
      exact .cycle h.agrees_refl
  | blames hblames _ ih =>
      obtain ⟨d, hd, hagrees⟩ := h.next hblames
      exact (ResolveError.Agrees.cycle hagrees).trans (ih hd)

/-- A key fails in one way, up to the key with which the chain of a circle starts. -/
theorem Faults.agrees {key : FlowKey} {error other : ResolveError} (h : w.Faults key error)
    (h' : w.Faults key other) : error.Agrees other := by
  induction h with
  | refuses h => cases h' with
    | refuses h' => exact h.agrees h'
    | closes h' =>
        obtain ⟨next, hnext⟩ := h'.exists_blames
        exact absurd h.ready hnext.not_ready
    | blames h' _ => exact absurd h.ready h'.not_ready
  | closes h => exact h.agrees_of_faults h'
  | blames h _ ih => cases h' with
    | refuses h' => exact absurd h'.ready h.not_ready
    | closes h' => exact (h'.agrees_of_faults (.blames h ‹_›)).symm
    | blames h' fault' =>
        obtain rfl := blames_rightUnique h h'
        exact ih fault'

end Wiring

end Negotiation
