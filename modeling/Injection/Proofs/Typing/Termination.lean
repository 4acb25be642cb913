import Injection.Proofs.Typing.Rank
import Injection.Proofs.Typing.Solution
import Mathlib.Data.Prod.Lex

/-!
The loop of the analysis ends over every hierarchy in which going up comes to an end, whatever it
says of interfaces and however long the ways up are.

`Machine.burden` counts the positions still to be reached, then the values that are null, then the
ranks of all values and the positions that are pending. Merging never raises it, and taking a
position lowers it. A hierarchy with a cycle admits a loop without end: two classes, each the
superclass of the other, take each other's place for ever.
-/

namespace Injection

open TypeValue (null)

def TypeFrame.total (count : TypeValue → Nat) (f : TypeFrame) : Nat :=
  (f.locals.map count).sum + (f.stack.map count).sum

def TypeValue.nulls (v : TypeValue) : Nat := if v = null then 1 else 0

section Slots

variable {h : Hierarchy} (hg : h.Grounded)

/-- Merging keeps a list of values, or leaves fewer of them null, or as many with lower ranks. -/
theorem zipWith_merge_falls {known incoming : List TypeValue}
    (hlen : known.length = incoming.length) :
    known.zipWith h.merge incoming = known ∨
      ((known.zipWith h.merge incoming).map TypeValue.nulls).sum <
        (known.map TypeValue.nulls).sum ∨
      ((known.zipWith h.merge incoming).map TypeValue.nulls).sum =
          (known.map TypeValue.nulls).sum ∧
        ((known.zipWith h.merge incoming).map hg.rank).sum < (known.map hg.rank).sum := by
  induction known generalizing incoming with
  | nil => exact .inl rfl
  | cons a known ih =>
      cases incoming with
      | nil => cases hlen
      | cons b incoming =>
          have hrest := ih (Nat.succ.inj hlen)
          simp only [List.zipWith_cons_cons, List.cons.injEq, List.map_cons, List.sum_cons]
          rcases hg.merge_cases a b with ha | ⟨rfl, hne⟩ | ⟨hne, hne', hlt⟩
          · rw [ha]
            rcases hrest with hrest | hrest | hrest
            · exact .inl ⟨rfl, hrest⟩
            · omega
            · omega
          · have hnulls : (h.merge null b).nulls = 0 := if_neg hne
            rw [hnulls, show null.nulls = 1 from rfl]
            rcases hrest with hrest | hrest | hrest
            · rw [hrest]
              omega
            · omega
            · omega
          · rw [show (h.merge a b).nulls = 0 from if_neg hne', show a.nulls = 0 from if_neg hne]
            rcases hrest with hrest | hrest | hrest
            · rw [hrest]
              omega
            · omega
            · omega

/-- A merge that changes a frame leaves fewer values null, or as many with lower ranks. -/
theorem total_mergeFrames {known incoming : TypeFrame}
    (hlocals : known.locals.length = incoming.locals.length)
    (hstack : known.stack.length = incoming.stack.length)
    (hne : Machine.mergeFrames h known incoming ≠ known) :
    (Machine.mergeFrames h known incoming).total TypeValue.nulls <
        known.total TypeValue.nulls ∨
      (Machine.mergeFrames h known incoming).total TypeValue.nulls =
          known.total TypeValue.nulls ∧
        (Machine.mergeFrames h known incoming).total hg.rank < known.total hg.rank := by
  simp only [TypeFrame.total, Machine.mergeFrames]
  rcases zipWith_merge_falls hg hlocals with hl | hl | hl
  · rcases zipWith_merge_falls hg hstack with hs | hs | hs
    · exact absurd (TypeFrame.ext hl hs) hne
    · rw [hl]
      omega
    · rw [hl]
      omega
  · rcases zipWith_merge_falls hg hstack with hs | hs | hs
    · rw [hs]
      omega
    · omega
    · omega
  · rcases zipWith_merge_falls hg hstack with hs | hs | hs
    · rw [hs]
      omega
    · omega
    · omega

end Slots

namespace Machine

variable {c : AnalysisContext} {h : Hierarchy} {m m' m'' : Machine} {position : Nat}
  {slots size nesting : Nat}

def total (count : TypeValue → Nat) (m : Machine) : Nat :=
  (m.frames.toList.map fun f => (f.map (·.total count)).getD 0).sum

theorem total_put (count : TypeValue → Nat) (frame : TypeFrame) (hlt : position < m.frames.size) :
    (m.put position frame).total count + ((m.frameAt? position).map (·.total count)).getD 0 =
      m.total count + frame.total count := by
  have hsum := sum_map_set (fun f : Option TypeFrame => (f.map (·.total count)).getD 0)
    (some frame) (getElem?_of_lt hlt)
  simpa [total, put] using hsum

/-- The positions without a frame, then the values that are null, then the ranks of all values
and the pending positions. -/
def burden (hg : h.Grounded) (m : Machine) : ℕ ×ₗ ℕ ×ₗ ℕ :=
  toLex (m.frames.size - m.reached, toLex (m.total TypeValue.nulls,
    m.total hg.rank + m.pending.length))

/-- What carrying a frame on does to a machine that meets the invariant: it still does, and the
burden is no greater. -/
structure Settles (hg : h.Grounded) (size slots nesting : Nat) (m m' : Machine) : Prop where
  sound : m'.Sound size slots nesting
  reached : m.reached ≤ m'.reached
  burden : m'.burden hg ≤ m.burden hg

namespace Settles

variable {hg : h.Grounded}

theorem refl (hm : m.Sound size slots nesting) : Settles hg size slots nesting m m :=
  ⟨hm, Nat.le_refl _, le_refl _⟩

theorem trans (hm : Settles hg size slots nesting m m')
    (hm' : Settles hg size slots nesting m' m'') : Settles hg size slots nesting m m'' :=
  ⟨hm'.sound, Nat.le_trans hm.reached hm'.reached, le_trans hm'.burden hm.burden⟩

end Settles

theorem mergeInto_settles (hg : h.Grounded) (hm : m.Sound size slots nesting)
    (hlt : position < size) {incoming : TypeFrame} (hin : m.Admits slots nesting incoming)
    (hok : m.mergeInto h position incoming = .ok m') :
    Settles hg size slots nesting m m' := by
  have hlt' : position < m.frames.size := hm.size.symm ▸ hlt
  rcases mergeInto_cases hok with ⟨hnone, rfl⟩ | ⟨known, hknown, hstack, hmerged⟩
  · have hreached : (m.put position incoming).reached = m.reached + 1 := by
      simpa [hnone] using reached_put incoming hlt'
    have hall := reached_le_size (m.put position incoming)
    rw [size_put] at hall
    have hstack := hin.stack
    refine ⟨hm.put hlt hin.locals (by omega) hin.within, by omega, le_of_lt ?_⟩
    rw [burden, burden, Prod.Lex.toLex_lt_toLex, size_put]
    exact .inl (by omega)
  -- No position is reached for the first time, so the nulls and the ranks decide.
  · have hlocals : known.locals.length = incoming.locals.length := by
      rw [hm.locals position known hknown, hin.locals]
    have hwithin : (mergeFrames h known incoming).Within nesting :=
      within_mergeFrames (hm.within position known hknown) hin.within
    rcases hmerged with ⟨-, rfl⟩ | ⟨hchanged, rfl⟩
    · exact .refl hm
    · have hreached : (m.put position (mergeFrames h known incoming)).reached = m.reached := by
        simpa [hknown] using reached_put (mergeFrames h known incoming) hlt'
      have hlengths : (mergeFrames h known incoming).locals.length = slots ∧
          (mergeFrames h known incoming).stack.length = known.stack.length := by
        have := hm.locals position known hknown
        simp only [mergeFrames, List.length_zipWith]
        omega
      refine ⟨hm.put hlt hlengths.1 ?_ hwithin, by omega, ?_⟩
      · rw [hreached, hlengths.2]
        exact hm.stack position known hknown
      · have hnulls := total_put TypeValue.nulls (mergeFrames h known incoming) hlt'
        have hranks := total_put hg.rank (mergeFrames h known incoming) hlt'
        have hpending := length_pending_put_le m position (mergeFrames h known incoming)
        simp only [hknown, Option.map_some, Option.getD_some] at hnulls hranks
        rw [burden, burden, size_put, hreached, Prod.Lex.toLex_le_toLex]
        refine .inr ⟨rfl, ?_⟩
        rw [Prod.Lex.toLex_le_toLex]
        rcases total_mergeFrames hg hlocals hstack hchanged with hlt | ⟨heq, hlt⟩
        · exact .inl (by simp only; omega)
        · exact .inr ⟨by simp only; omega, by simp only; omega⟩

theorem propagate_settles (hg : c.hierarchy.Grounded) (hc : c.Covered nesting)
    (hm : m.Sound c.instructions.size slots nesting) {i : Instruction} {before : TypeFrame}
    (hi : c.instructions.get? position = some i) (hbefore : m.frameAt? position = some before)
    (hok : m.propagate c position i before = .ok m') :
    Settles hg c.instructions.size slots nesting m m' := by
  refine (propagate_edges (Settles hg c.instructions.size slots nesting m) (fun _ _ _ => True)
    (.refl hm) hi (fun target incoming hcarries s t hs hmerge => ?_) hok).1
  have hst := mergeInto_settles hg hs.sound (hcarries.lt_size hc.handler)
    (admits_of_carries hc hm hbefore hcarries hs.reached) hmerge
  exact ⟨hs.trans hst, trivial, fun _ _ => id⟩

/-- A step keeps the invariant and lowers the burden. -/
theorem step_settles (hg : c.hierarchy.Grounded) (hc : c.Covered nesting)
    (hm : m.Sound c.instructions.size slots nesting) (hne : m.pending ≠ [])
    (hok : m.step c = .ok m') :
    m'.Sound c.instructions.size slots nesting ∧ m'.burden hg < m.burden hg := by
  rcases step_cases hok with ⟨hdone, -⟩ | ⟨position, pending, hpending, hstep⟩
  · exact absurd hdone hne
  -- The machine without the position taken has the same frames.
  let m₀ : Machine := { m with pending }
  have hm₀ : m₀.Sound c.instructions.size slots nesting := hm.with_pending pending
  have hlower : m₀.burden hg < m.burden hg := by
    simp [burden, Prod.Lex.toLex_lt_toLex, m₀, hpending, reached, total]
  rcases hstep with ⟨before, i, hbefore, hi, hok⟩ | ⟨-, rfl⟩
  · have hsettles := propagate_settles hg hc hm₀ hi hbefore hok
    exact ⟨hsettles.sound, lt_of_le_of_lt hsettles.burden hlower⟩
  · exact ⟨hm₀, hlower⟩

theorem ends_of_grounded (hg : c.hierarchy.Grounded) (hc : c.Covered nesting)
    (hm : m.Sound c.instructions.size slots nesting) : m.Ends c :=
  ends_of_falls (Sound c.instructions.size slots nesting) (burden hg)
    (fun _ _ => step_settles hg hc) hm

/-- A loop that ends does so with all fuel from some amount on. -/
theorem Ends.exists_fuel (hends : m.Ends c) :
    ∃ most, ∀ fuel count, ∀ w : Watch, most ≤ fuel → w.IsLive →
      (run c fuel count m w).1 ≠ .error .unsettled := by
  induction hends with
  | @settled m hdone =>
      refine ⟨0, fun fuel count w _ _ => ?_⟩
      cases fuel <;> simp [run, hdone]
  | @failed m e hstep =>
      have hpending : m.pending ≠ [] := by
        intro hdone
        simp [Machine.step, hdone] at hstep
      refine ⟨1, fun fuel count w hle hw => ?_⟩
      obtain ⟨fuel, rfl⟩ := Nat.exists_eq_add_of_le' hle
      obtain ⟨w', -, hrun⟩ := run_succ hpending fuel count hw
      rw [hrun, hstep]
      exact fun heq => (step_ofMethod hstep).2 (Except.error.inj heq)
  | @step m m' hstep _ ih =>
      obtain ⟨most, hmost⟩ := ih
      refine ⟨most + 1, fun fuel count w hle hw => ?_⟩
      obtain ⟨fuel, rfl⟩ := Nat.exists_eq_add_of_le' (Nat.le_of_add_left_le hle)
      by_cases hpending : m.pending = []
      · simp [run, hpending]
      · obtain ⟨w', hw', hrun⟩ := run_succ hpending fuel count hw
        rw [hrun, hstep]
        exact hmost fuel (count + 1) w' (by omega) hw'

/-! ### Loops without end -/

/-- A loop that stays among states with something pending never ends, whatever its fuel. -/
theorem not_ends_of_stays {among : Machine → Prop}
    (hstays : ∀ m, among m → m.pending ≠ [] ∧ ∃ m', m.step c = .ok m' ∧ among m')
    (hm : among m) :
    ¬ m.Ends c ∧ ∀ fuel count, ∀ w : Watch, w.IsLive →
      (run c fuel count m w).1 = .error .unsettled := by
  refine ⟨fun hends => ?_, fun fuel => ?_⟩
  · induction hends with
    | settled hdone => exact (hstays _ hm).1 hdone
    | failed hstep =>
        obtain ⟨-, m', hstep', -⟩ := hstays _ hm
        cases hstep.symm.trans hstep'
    | step hstep _ ih =>
        obtain ⟨-, m', hstep', hm'⟩ := hstays _ hm
        cases hstep.symm.trans hstep'
        exact ih hm'
  · induction fuel generalizing m with
    | zero =>
        intro count w _
        have hempty : m.pending.isEmpty = false := by simpa using (hstays m hm).1
        simp [run, hempty]
    | succ fuel ih =>
        intro count w hw
        obtain ⟨hpending, m', hstep, hm'⟩ := hstays m hm
        obtain ⟨w', hw', hrun⟩ := run_succ hpending fuel count hw
        rw [hrun, hstep]
        exact ih hm' (count + 1) w' hw'

def trail (c : AnalysisContext) : (steps : Nat) → Machine → List Machine
  | 0, _ => []
  | steps + 1, m =>
    m :: match m.step c with
      | .ok m' => trail c steps m'
      | .error _ => []

/-- Every state of a list has something pending, and the next state is in the list again. -/
def circles (c : AnalysisContext) (states : List Machine) : Bool :=
  states.all fun m => !m.pending.isEmpty &&
    match m.step c with
    | .ok m' => states.contains m'
    | .error _ => false

theorem stays_of_circles {states : List Machine} (hcircles : circles c states = true) :
    ∀ m ∈ states, m.pending ≠ [] ∧ ∃ m', m.step c = .ok m' ∧ m' ∈ states := by
  intro m hm
  have hturn := List.all_eq_true.mp hcircles m hm
  rw [Bool.and_eq_true] at hturn
  obtain ⟨hpending, hnext⟩ := hturn
  refine ⟨by simpa using hpending, ?_⟩
  split at hnext
  · rename_i m' hstep
    exact ⟨m', hstep, by simpa using hnext⟩
  · cases hnext

end Machine

namespace Analysis

variable {owner : String} {m : Method} {h : Hierarchy} {c : AnalysisContext} {entry : TypeFrame}

/-- Where going up from any class comes to an end, the loop of an analysis ends, and a run that is
given enough fuel and a token that stays live does not report a loop without end. -/
theorem analysis_ends_of_grounded (hg : h.Grounded) {start : Machine}
    (hne : m.instructions.isEmpty = false) (he : TypeFrame.entry owner m = .ok entry)
    (hc : context owner m h = .ok c)
    (hstart : (Machine.initial m.instructions.size).mergeInto h 0 entry = .ok start) :
    start.Ends c ∧ ∃ most, ∀ fuel count, ∀ w : Watch, most ≤ fuel → w.IsLive →
      (start.run c fuel count w).1 ≠ .error .unsettled := by
  obtain ⟨hsound, hadmits, hpos⟩ := start_admits hne he
  have hsettles := Machine.mergeInto_settles hg hsound hpos hadmits hstart
  obtain ⟨-, hinstructions, hhierarchy, -⟩ := context_eq_ok hc
  have hends : start.Ends c :=
    Machine.ends_of_grounded (hhierarchy ▸ hg) (covered_of_context hc)
      (hinstructions ▸ hsettles.sound)
  exact ⟨hends, hends.exists_fuel⟩

def swapLoop : Method where
  access := 0x0008
  name := "m"
  desc := "(La/A;La/B;)V"
  maxStack := 16
  maxLocals := 2
  instructions := .ofList [.label ⟨0⟩, .var .aload 0, .var .aload 1, .var .astore 0,
    .var .astore 1, .jump .goto ⟨0⟩]
  handlers := []
  declaredLocals := []

def swapContext (h : Hierarchy) : AnalysisContext := ⟨"a/A", swapLoop.instructions, h, []⟩

def swapEntry : TypeFrame := ⟨[.object "a/A", .object "a/B"], []⟩

def swapStart : Machine := (Machine.initial swapLoop.instructions.size).put 0 swapEntry

/-- A class with a hundred superclasses, more than the search for a common one looks at, of which
one is an interface: a name of letters x has the name with one letter less above it. -/
def deepClasses : Hierarchy where
  superClass name :=
    if name = "a/A" then some (String.ofList (List.replicate 100 'x'))
    else
      match name.toList with
      | 'x' :: rest => some (String.ofList rest)
      | _ => none
  isInterface name := name = "x"

theorem grounded_deepClasses : deepClasses.Grounded := by
  have shorter (rest : List Char) :
      deepClasses.superClass (String.ofList ('x' :: rest)) = some (String.ofList rest) := by
    have hne : String.ofList ('x' :: rest) ≠ "a/A" := by
      rw [Ne, String.ext_iff, String.toList_ofList]
      simp
    simp only [deepClasses, if_neg hne, String.toList_ofList]
  have letters (n : Nat) :
      deepClasses.ancestor? (n + 1) (String.ofList (List.replicate n 'x')) = none := by
    induction n with
    | zero => decide
    | succ n ih => rw [Hierarchy.ancestor?, List.replicate_succ, shorter, Option.bind_some, ih]
  refine ⟨fun name => ?_, by decide⟩
  obtain ⟨chars, rfl⟩ : ∃ chars, name = String.ofList chars := ⟨name.toList, by simp⟩
  induction chars with
  | nil => exact ⟨1, by decide⟩
  | cons c rest ih =>
      by_cases hx : c = 'x'
      · obtain ⟨steps, hsteps⟩ := ih
        exact ⟨steps + 1, by rw [Hierarchy.ancestor?, hx, shorter, Option.bind_some, hsteps]⟩
      · by_cases hname : String.ofList (c :: rest) = "a/A"
        · have hlong : deepClasses.superClass "a/A" =
              some (String.ofList (List.replicate 100 'x')) := by
            simp only [deepClasses, if_true]
          exact ⟨100 + 1 + 1, by rw [hname, Hierarchy.ancestor?, hlong, Option.bind_some, letters]⟩
        · refine ⟨1, ?_⟩
          rw [Hierarchy.ancestor?_one]
          simp only [deepClasses, if_neg hname, String.toList_ofList]
          split
          · simp_all
          · rfl

theorem analysis_ends_deepClasses :
    deepClasses.Grounded ∧ swapLoop.instructions.isEmpty = false ∧
      TypeFrame.entry "a/A" swapLoop = .ok swapEntry ∧
      context "a/A" swapLoop deepClasses = .ok (swapContext deepClasses) ∧
      (Machine.initial swapLoop.instructions.size).mergeInto deepClasses 0 swapEntry =
        .ok swapStart ∧ swapStart.Ends (swapContext deepClasses) :=
  have he : TypeFrame.entry "a/A" swapLoop = .ok swapEntry := by decide +kernel
  have hstart : (Machine.initial swapLoop.instructions.size).mergeInto deepClasses 0 swapEntry =
      .ok swapStart := by decide +kernel
  ⟨grounded_deepClasses, rfl, he, rfl, hstart,
    (analysis_ends_of_grounded grounded_deepClasses rfl he rfl hstart).1⟩

def mutualClasses : Hierarchy :=
  .ofList [("a/A", some "a/B", false), ("a/B", some "a/A", false)]

/-- Over two classes that are each other's superclass, the loop that swaps them never ends. -/
theorem analysis_endless_mutualClasses :
    TypeFrame.entry "a/A" swapLoop = .ok swapEntry ∧
      context "a/A" swapLoop mutualClasses = .ok (swapContext mutualClasses) ∧
      (Machine.initial swapLoop.instructions.size).mergeInto mutualClasses 0 swapEntry =
        .ok swapStart ∧
      ¬ swapStart.Ends (swapContext mutualClasses) ∧
      ∀ fuel count, ∀ w : Watch, w.IsLive →
        (swapStart.run (swapContext mutualClasses) fuel count w).1 = .error .unsettled := by
  -- Six steps reach every node; the loop comes back to the sixth state after twelve more.
  have hcircles : Machine.circles (swapContext mutualClasses)
      (Machine.trail (swapContext mutualClasses) 17 swapStart) = true := by decide +kernel
  refine ⟨by decide +kernel, rfl, by decide +kernel, ?_⟩
  exact Machine.not_ends_of_stays (Machine.stays_of_circles hcircles) List.mem_cons_self

end Analysis

end Injection
