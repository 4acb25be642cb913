import Injection.Proofs.Typing.Solution
import Mathlib.Logic.Relation

/-!
The positions with a frame are those that control may reach.

`Method.Leads` is the control flow of a method and says nothing of types. `Machine.Follows` is the
invariant of the worklist: only reachable positions have frames, and what a position leads to has
a frame unless the position is pending. No order of frames is needed, so the hierarchy may be any.
-/

namespace Injection

/-- A node leads to the next node unless it hands control over, to its branch targets, and to the
handler of every range that holds it. -/
inductive Method.Leads (m : Method) (position : Nat) : (target : Nat) → Prop
  | next {i : Instruction} (hi : m.instructions.get? position = some i)
      (hfall : i.isTransfer = false) (hlt : position + 1 < m.instructions.size) :
      Leads m position (position + 1)
  | target {i : Instruction} {l : Label} {target : Nat}
      (hi : m.instructions.get? position = some i) (hl : l ∈ i.targets)
      (ht : m.instructions.labelPosition? l = some target) : Leads m position target
  | handler {b : ExceptionHandler} {start stop target : Nat} (hb : b ∈ m.handlers)
      (hstart : m.instructions.labelPosition? b.start = some start)
      (hstop : m.instructions.labelPosition? b.stop = some stop)
      (ht : m.instructions.labelPosition? b.handler = some target)
      (hle : start ≤ position) (hlt : position < stop) : Leads m position target

abbrev Method.Reaches (m : Method) (position : Nat) : Prop :=
  Relation.ReflTransGen m.Leads 0 position

namespace Analysis

variable {owner : String} {m : Method} {h : Hierarchy} {c : AnalysisContext}
  {position target : Nat} {before : TypeFrame}

/-- The edges of the analysis are those of the control flow. -/
theorem leads_of_carries (hc : context owner m h = .ok c) {incoming : TypeFrame}
    (hcarries : c.Carries position before target incoming) : m.Leads position target := by
  obtain ⟨-, hinstructions, -, hguarded⟩ := context_eq_ok hc
  cases hcarries with
  | handler hg hcovers =>
      obtain ⟨b, hb, hrange⟩ := (forall₂_exists hguarded).2 _ hg
      obtain ⟨hstart, hstop, hhandler, -⟩ := guardedRange_eq_ok hrange
      simp only [GuardedRange.covers, Bool.and_eq_true, decide_eq_true_eq] at hcovers
      exact .handler hb hstart hstop hhandler hcovers.1 hcovers.2
  | target hi _ hl ht =>
      rw [hinstructions] at hi ht
      exact .target hi hl ht
  | next hi _ hfall hnext =>
      rw [hinstructions] at hi hnext
      obtain ⟨rfl, hlt⟩ := InstructionList.next?_eq_some_iff.mp hnext
      exact .next hi hfall hlt

theorem exists_carries (hc : context owner m h = .ok c) {i : Instruction} {after : TypeFrame}
    (hi : c.instructions.get? position = some i)
    (hexec : Typing.execute c.owner position i before = .ok after)
    (hleads : m.Leads position target) : ∃ incoming, c.Carries position before target incoming := by
  obtain ⟨-, hinstructions, -, hguarded⟩ := context_eq_ok hc
  have hi' := hi
  rw [hinstructions] at hi'
  cases hleads with
  | next hi₁ hfall hlt =>
      cases hi'.symm.trans hi₁
      refine ⟨after, .next hi hexec hfall ?_⟩
      rw [hinstructions]
      exact InstructionList.next?_eq_some_iff.mpr ⟨rfl, hlt⟩
  | target hi₁ hl ht =>
      cases hi'.symm.trans hi₁
      exact ⟨after, .target hi hexec hl (hinstructions ▸ ht)⟩
  | handler hb hstart hstop ht hle hlt =>
      obtain ⟨g, hg, hrange⟩ := (forall₂_exists hguarded).1 _ hb
      obtain ⟨hstart', hstop', hhandler, -⟩ := guardedRange_eq_ok hrange
      cases hstart.symm.trans hstart'
      cases hstop.symm.trans hstop'
      cases ht.symm.trans hhandler
      exact ⟨_, .handler hg (by simp [GuardedRange.covers, hle, hlt])⟩

end Analysis

namespace Machine

/-- The invariant of the worklist: positions with a frame are reachable, and all that such a
position leads to has a frame, or the position is still to be carried on. -/
structure Follows (method : Method) (m : Machine) : Prop where
  size : m.frames.size = method.instructions.size
  first : (m.frameAt? 0).isSome
  reached : ∀ i, (m.frameAt? i).isSome → method.Reaches i
  settled : ∀ i, (m.frameAt? i).isSome →
    i ∈ m.pending ∨ ∀ j, method.Leads i j → (m.frameAt? j).isSome

variable {owner : String} {method : Method} {h : Hierarchy} {c : AnalysisContext} {m m' : Machine}

theorem Continues.isSome_frameAt? (hm : Continues m m') {i : Nat} (hi : (m.frameAt? i).isSome) :
    (m'.frameAt? i).isSome := by
  obtain ⟨f, hf⟩ := Option.isSome_iff_exists.mp hi
  obtain ⟨f', hf', -⟩ := hm.frames i f hf
  rw [hf']
  rfl

/-- A merge gives no other position a frame. -/
theorem isSome_frameAt?_of_mergeInto {position i : Nat} {incoming : TypeFrame}
    (hok : m.mergeInto h position incoming = .ok m') (hi : (m'.frameAt? i).isSome) :
    i = position ∨ (m.frameAt? i).isSome := by
  by_cases heq : i = position
  · exact .inl heq
  · refine .inr ?_
    rcases mergeInto_cases hok with ⟨-, rfl⟩ | ⟨known, -, -, ⟨-, rfl⟩ | ⟨-, rfl⟩⟩
    · rwa [frameAt?_put_of_ne heq] at hi
    · exact hi
    · rwa [frameAt?_put_of_ne heq] at hi

theorem Follows.step (hc : Analysis.context owner method h = .ok c) (hm : m.Follows method)
    (hok : m.step c = .ok m') : m'.Follows method := by
  obtain ⟨-, hinstructions, -, -⟩ := Analysis.context_eq_ok hc
  rcases step_cases hok with ⟨-, rfl⟩ | ⟨position, pending, hpending, h | ⟨hnone, rfl⟩⟩
  · exact hm
  · obtain ⟨before, i, hbefore, hi, hok⟩ := h
    have hguards := (Analysis.covered_of_context hc).handler
    let m₀ : Machine := { m with pending }
    obtain ⟨hcont, ⟨after, hexec, -⟩, hframed⟩ :=
      propagate_continues (m := m₀) hguards (hinstructions ▸ hm.size) hi hok
    have hposition : method.Reaches position := hm.reached position (by rw [hbefore]; rfl)
    -- What gets a frame is reached from the position taken; what is no longer pending is the position
    -- itself, or was settled before.
    refine ⟨hcont.size.trans hm.size, hcont.isSome_frameAt? hm.first, ?_, fun j hj => ?_⟩
    · exact (propagate_edges (m := m₀) (fun t => ∀ j, (t.frameAt? j).isSome → method.Reaches j)
        (fun _ _ _ => True) hm.reached hi (fun target incoming hcarries s t hs hmerge => by
          refine ⟨fun j hj => ?_, trivial, fun _ _ => id⟩
          rcases isSome_frameAt?_of_mergeInto hmerge hj with rfl | hj
          · exact hposition.tail (Analysis.leads_of_carries hc hcarries)
          · exact hs j hj) hok).1
    · by_cases hmem : j ∈ m'.pending
      · exact .inl hmem
      · rw [hcont.rest j hmem] at hj
        refine .inr fun k hk => ?_
        by_cases hjp : j = position
        · subst hjp
          obtain ⟨incoming, hcarries⟩ := Analysis.exists_carries hc hi hexec hk
          exact hframed k incoming hcarries
        · rcases hm.settled j hj with hold | hleads
          · rw [hpending] at hold
            exact absurd (hcont.pending j ((List.mem_cons.mp hold).resolve_left hjp)) hmem
          · exact hcont.isSome_frameAt? (hleads k hk)
  · refine ⟨hm.size, hm.first, hm.reached, fun j hj => ?_⟩
    rcases hm.settled j hj with hold | hleads
    · rw [hpending] at hold
      rcases List.mem_cons.mp hold with rfl | hold
      · have := frameAt?_eq_none (hinstructions ▸ hm.size) hnone
        rw [show Machine.frameAt? { m with pending } j = m.frameAt? j from rfl, this] at hj
        cases hj
      · exact .inl hold
    · exact .inr hleads

end Machine

namespace Analysis

variable {owner : String} {m : Method} {h : Hierarchy}

theorem follows_start (hne : m.instructions.isEmpty = false) {entry : TypeFrame} {start : Machine}
    (hstart : (Machine.initial m.instructions.size).mergeInto h 0 entry = .ok start) :
    start.Follows m := by
  have hlt : 0 < (Machine.initial m.instructions.size).frames.size := by
    simpa [Machine.initial, InstructionList.size, InstructionList.isEmpty, Array.size_pos_iff]
      using hne
  obtain ⟨hcont, hfirst⟩ := Machine.mergeInto_continues hlt hstart
  have hzero {i : Nat} (hi : (start.frameAt? i).isSome) : i = 0 := by
    refine (Machine.isSome_frameAt?_of_mergeInto hstart hi).resolve_right ?_
    simp [frameAt?_initial]
  refine ⟨hcont.size.trans (by simp [Machine.initial]), hfirst, fun i hi => ?_, fun i hi => .inl ?_⟩
  · rw [hzero hi]
  · by_contra hmem
    rw [hcont.rest i hmem, frameAt?_initial] at hi
    cases hi

/-- The frames of an analysis mark exactly the positions that control may reach from the first
node, whatever the class, the hierarchy and the token are. -/
theorem framed_iff_reaches (owner : String) (m : Method) (h : Hierarchy) {w : Watch}
    {frames : Frames} (hne : m.instructions.isEmpty = false)
    (hok : (analyze owner m h).answer w = .ok frames) (i : Nat) :
    (frames.at? i).isSome ↔ m.Reaches i := by
  have hensures : (analyze owner m h).Ensures fun frames =>
      ∃ machine : Machine, machine.frames = frames ∧ machine.Follows m ∧ machine.pending = [] := by
    refine analyze_ensures (fun hempty => by rw [hne] at hempty; cases hempty)
      fun entry c start fuel _ _ hc hstart => ?_
    refine .mono (Machine.run_ensures (Machine.Follows m) (fun _ _ hm hok => hm.step hc hok)
      (follows_start hne hstart) fuel 0) fun machine hm => ⟨machine, rfl, hm⟩
  obtain ⟨machine, rfl, hfollows, hdone⟩ := hensures.of_answer hok
  refine ⟨hfollows.reached i, fun hreaches => ?_⟩
  induction hreaches with
  | refl => exact hfollows.first
  | @tail j k _ hleads ih =>
      rcases hfollows.settled j ih with hmem | hall
      · rw [hdone] at hmem
        cases hmem
      · exact hall k hleads

/-- A loop under a handler, with a node that nothing leads to. -/
def guardedLoop : Method where
  access := 0x0008
  name := "m"
  desc := "(I)V"
  maxStack := 1
  maxLocals := 1
  instructions := .ofList [.label ⟨0⟩, .var .iload 0, .jump .ifeq ⟨0⟩, .label ⟨1⟩, .plain .returnVoid,
    .plain .nop, .label ⟨2⟩, .plain .athrow]
  handlers := [⟨⟨0⟩, ⟨1⟩, ⟨2⟩, none⟩]
  declaredLocals := []

def guardedFrames : Frames :=
  let entry := TypeFrame.mk [.int] []
  let caught := TypeFrame.mk [.int] [.object "java/lang/Throwable"]
  #[some entry, some entry, some ⟨[.int], [.int]⟩, some entry, some entry, none, some caught,
    some caught]

theorem framed_guardedLoop :
    guardedLoop.instructions.isEmpty = false ∧
      (analyze "a/Owner" guardedLoop .unknown).answer .live = .ok guardedFrames ∧
      guardedLoop.Reaches 6 ∧ ¬ guardedLoop.Reaches 5 := by
  have hok : (analyze "a/Owner" guardedLoop .unknown).answer .live = .ok guardedFrames := by
    decide +kernel
  have hiff := framed_iff_reaches "a/Owner" guardedLoop .unknown (w := .live) rfl hok
  exact ⟨rfl, hok, (hiff 6).mp rfl, fun hreaches => absurd ((hiff 5).mpr hreaches) (by decide)⟩

end Analysis

end Injection
