import Injection.Point.Collector
import Mathlib.Tactic.Common

/-!
What a collection keeps. The filters see one candidate after the other and count as they go;
here the result is told for the whole list of candidates at once: each filter keeps a part of what
the filters in front of it kept, an ordinal the one item it counts up to.
-/

namespace Injection

namespace ResultFilter

def passed (f : ResultFilter) : List Match → List Match
  | [] => []
  | m :: rest => if f.accepts m then m :: f.advance.passed rest else f.advance.passed rest

def runAll (filters : List ResultFilter) : List Match → List Match
  | [] => []
  | m :: rest =>
    if (run m filters).1.isNone then m :: runAll (run m filters).2 rest
    else runAll (run m filters).2 rest

def keep : ResultFilter → List Match → List Match
  | slice bounds, ms => ms.filter (slice bounds).accepts
  | ordinal wanted seen, ms => if seen ≤ wanted then ms[wanted - seen]?.toList else []

theorem passed_slice (bounds : Option (Nat × Nat)) (ms : List Match) :
    (slice bounds).passed ms = ms.filter (slice bounds).accepts := by
  induction ms with
  | nil => rfl
  | cons m ms ih =>
      rw [passed, List.filter_cons]
      simp only [advance, ih]

/-- An ordinal that has been passed by keeps nothing. -/
theorem passed_ordinal_of_lt {wanted seen : Nat} (hlt : wanted < seen) (ms : List Match) :
    (ordinal wanted seen).passed ms = [] := by
  induction ms generalizing seen with
  | nil => rfl
  | cons m ms ih =>
      have hne : seen ≠ wanted := by omega
      simp [passed, accepts, advance, hne, ih (Nat.lt_succ_of_lt hlt)]

theorem passed_ordinal {wanted seen : Nat} (hle : seen ≤ wanted) (ms : List Match) :
    (ordinal wanted seen).passed ms = ms[wanted - seen]?.toList := by
  induction ms generalizing seen with
  | nil => simp [passed]
  | cons m ms ih =>
      rcases Nat.eq_or_lt_of_le hle with rfl | hlt
      · simp [passed, accepts, advance, passed_ordinal_of_lt]
      · have hne : seen ≠ wanted := by omega
        have hsub : wanted - seen = wanted - (seen + 1) + 1 := by omega
        simp [passed, accepts, advance, hne, ih hlt, hsub]

theorem passed_eq_keep (f : ResultFilter) (ms : List Match) : f.passed ms = f.keep ms := by
  cases f with
  | slice bounds => exact passed_slice bounds ms
  | ordinal wanted seen =>
      rw [keep]
      split
      · exact passed_ordinal ‹_› ms
      · exact passed_ordinal_of_lt (by omega) ms

theorem runAll_nil (ms : List Match) : runAll [] ms = ms := by
  induction ms with
  | nil => rfl
  | cons m ms ih => simp [runAll, run, ih]

/-- The filters behind the first one see only what it lets through. -/
theorem runAll_cons (f : ResultFilter) (fs : List ResultFilter) (ms : List Match) :
    runAll (f :: fs) ms = runAll fs (f.passed ms) := by
  induction ms generalizing f fs with
  | nil => rfl
  | cons m ms ih =>
      by_cases hf : f.accepts m
      · simp [runAll, run, passed, hf, ih]
      · simp [runAll, run, passed, hf, ih]

theorem runAll_eq_foldl (fs : List ResultFilter) (ms : List Match) :
    runAll fs ms = fs.foldl (fun ms f => f.keep ms) ms := by
  induction fs generalizing ms with
  | nil => exact runAll_nil ms
  | cons f fs ih => rw [runAll_cons, ih, List.foldl_cons, passed_eq_keep]

theorem keep_sublist (f : ResultFilter) (ms : List Match) : (f.keep ms).Sublist ms := by
  cases f with
  | slice bounds => exact List.filter_sublist
  | ordinal wanted seen =>
      rw [keep]
      split
      · rcases hm : ms[wanted - seen]? with _ | m
        · exact List.nil_sublist ms
        · exact List.singleton_sublist.mpr (List.mem_of_getElem? hm)
      · exact List.nil_sublist ms

theorem runAll_sublist (fs : List ResultFilter) (ms : List Match) : (runAll fs ms).Sublist ms := by
  induction fs generalizing ms with
  | nil => simp [runAll_nil]
  | cons f fs ih =>
      rw [runAll_cons, passed_eq_keep]
      exact (ih _).trans (f.keep_sublist ms)

end ResultFilter

/-! ### Collections -/

namespace Candidate

/-- The candidate as a match, with its number and the position it is shifted to. -/
def toMatch (x : Candidate) (index position : Nat) : Match :=
  ⟨index, x.position, position, x.element, x.qualifier, x.decorations⟩

/-- Candidates numbered from `first` on and moved, without those that have no place to go to. -/
def moveAll (move? : Nat → Option Nat) (xs : List Candidate) (first : Nat) : List Match :=
  (xs.zipIdx first).filterMap fun (x, index) => (move? x.position).map (x.toMatch index)

theorem moveAll_cons (move? : Nat → Option Nat) (x : Candidate) (xs : List Candidate)
    (first : Nat) :
    moveAll move? (x :: xs) first =
      ((move? x.position).map (x.toMatch first)).toList ++ moveAll move? xs (first + 1) := by
  rcases h : move? x.position with _ | p
  · simp [moveAll, h]
  · simp [moveAll, h]

theorem moveAll_of_stay {move? : Nat → Option Nat} {xs : List Candidate}
    (h : ∀ x ∈ xs, move? x.position = some x.position) (first : Nat) :
    moveAll move? xs first = (xs.zipIdx first).map fun (x, i) => x.toMatch i x.position := by
  induction xs generalizing first with
  | nil => rfl
  | cons x xs ih =>
      obtain ⟨hx, hxs⟩ := List.forall_mem_cons.mp h
      rw [moveAll_cons, hx, ih hxs]
      rfl

end Candidate

namespace InstructionList

def shiftAll (is : InstructionList) (distance : Int) (xs : List Candidate) (first : Nat) :
    List Match :=
  (xs.zipIdx first).filterMap fun (x, index) =>
    (is.offset? x.position distance).map (x.toMatch index)

theorem shiftAll_eq_moveAll (is : InstructionList) (distance : Int) (xs : List Candidate)
    (first : Nat) :
    is.shiftAll distance xs first = Candidate.moveAll (is.offset? · distance) xs first := rfl

theorem shiftAll_cons (is : InstructionList) (distance : Int) (x : Candidate)
    (xs : List Candidate) (first : Nat) :
    is.shiftAll distance (x :: xs) first =
      ((is.offset? x.position distance).map (x.toMatch first)).toList ++
        is.shiftAll distance xs (first + 1) :=
  Candidate.moveAll_cons (is.offset? · distance) x xs first

theorem length_shiftAll_le (is : InstructionList) (distance : Int) (xs : List Candidate)
    (first : Nat) : (is.shiftAll distance xs first).length ≤ xs.length := by
  have hle := List.length_filterMap_le (fun (x, index) =>
    (is.offset? x.position distance).map (x.toMatch index)) (xs.zipIdx first)
  rwa [List.length_zipIdx] at hle

end InstructionList

namespace Collector

variable {c : Collector} {x : Candidate}

def gather (c : Collector) : List Candidate → Collector
  | [] => c
  | x :: rest => if (c.add x).2 then (c.add x).1 else (c.add x).1.gather rest

theorem add_of_shifted_off (hshift : c.shifted? x.position = none) :
    c.add x = ({ c with candidates := c.candidates + 1 }.blame .shift, false) := by
  simp only [add, hshift]

theorem add_of_rejected {p : Nat} {sieve : Sieve} {filters : List ResultFilter}
    (hshift : c.shifted? x.position = some p)
    (hrun : ResultFilter.run (x.toMatch c.candidates p) c.filters = (some sieve, filters)) :
    c.add x = ({ c with candidates := c.candidates + 1, filters }.blame sieve, false) := by
  rw [Candidate.toMatch] at hrun
  simp only [add, hshift, hrun]

theorem add_of_accepted {p : Nat} {filters : List ResultFilter}
    (hshift : c.shifted? x.position = some p)
    (hrun : ResultFilter.run (x.toMatch c.candidates p) c.filters = (none, filters)) :
    c.add x =
      ({ c with candidates := c.candidates + 1, filters,
                results := c.results ++ [x.toMatch c.candidates p] }, decide (c.mode = .first)) := by
  rw [Candidate.toMatch] at hrun
  simp only [add, hshift, hrun]
  rfl

/-- What becomes of a candidate: it is rejected, which leaves the results and puts the blame on
some test, or it is accepted. -/
theorem add_cases (c : Collector) (x : Candidate) :
    (c.shifted? x.position = none ∧
      c.add x = ({ c with candidates := c.candidates + 1 }.blame .shift, false)) ∨
    (∃ p sieve filters, c.shifted? x.position = some p ∧
      ResultFilter.run (x.toMatch c.candidates p) c.filters = (some sieve, filters) ∧
      c.add x = ({ c with candidates := c.candidates + 1, filters }.blame sieve, false)) ∨
    ∃ p filters, c.shifted? x.position = some p ∧
      ResultFilter.run (x.toMatch c.candidates p) c.filters = (none, filters) ∧
      c.add x =
        ({ c with candidates := c.candidates + 1, filters,
                  results := c.results ++ [x.toMatch c.candidates p] }, decide (c.mode = .first)) := by
  rcases hshift : c.shifted? x.position with _ | p
  · exact .inl ⟨rfl, add_of_shifted_off hshift⟩
  · rcases hrun : ResultFilter.run (x.toMatch c.candidates p) c.filters with ⟨_ | sieve, filters⟩
    · exact .inr (.inr ⟨p, filters, rfl, hrun, add_of_accepted hshift hrun⟩)
    · exact .inr (.inl ⟨p, sieve, filters, rfl, hrun, add_of_rejected hshift hrun⟩)

/-- The results of a walk that does not stop: the candidates, moved and put through the filters. -/
theorem results_gather_moved (hmode : c.mode ≠ .first) (xs : List Candidate) :
    (c.gather xs).results = c.results ++
      ResultFilter.runAll c.filters (Candidate.moveAll c.shifted? xs c.candidates) := by
  induction xs generalizing c with
  | nil => simp [gather, Candidate.moveAll, ResultFilter.runAll]
  | cons x xs ih =>
      rw [Candidate.moveAll_cons, gather]
      rcases c.add_cases x with ⟨hshift, hadd⟩ | ⟨p, sieve, filters, hshift, hrun, hadd⟩ |
        ⟨p, filters, hshift, hrun, hadd⟩
      · rw [hadd, hshift]
        exact ih (c := { c with candidates := c.candidates + 1 }.blame .shift) hmode
      · rw [hadd, hshift]
        simp only [Option.map_some, Option.toList_some, List.singleton_append,
          ResultFilter.runAll, hrun]
        exact ih (c := { c with candidates := c.candidates + 1, filters }.blame sieve) hmode
      · rw [hadd, hshift]
        simp only [Option.map_some, Option.toList_some, List.singleton_append,
          ResultFilter.runAll, hrun, hmode, decide_false, Bool.false_eq_true, if_false,
          Option.isNone_none, if_true]
        refine (ih (c := { c with candidates := c.candidates + 1, filters,
                                  results := c.results ++ [x.toMatch c.candidates p] })
          hmode).trans ?_
        rw [List.append_assoc]
        rfl

/-- All results of a walk: the candidates, shifted and put through the filters. -/
theorem results_gather (hmode : c.mode = .all) (xs : List Candidate) :
    (c.gather xs).results =
      c.results ++
        ResultFilter.runAll c.filters
          (c.method.instructions.shiftAll c.shift xs c.candidates) := by
  have hshift : c.shifted? = (c.method.instructions.offset? · c.shift) := by
    funext p
    simp [shifted?, hmode]
  rw [results_gather_moved (by simp [hmode]), hshift, InstructionList.shiftAll_eq_moveAll]

theorem length_results_gather_le (hmode : c.mode = .all) (xs : List Candidate) :
    (c.gather xs).results.length ≤ c.results.length + xs.length := by
  rw [results_gather hmode, List.length_append]
  have hkept := (ResultFilter.runAll_sublist c.filters
    (c.method.instructions.shiftAll c.shift xs c.candidates)).length_le
  have hshifted :=
    InstructionList.length_shiftAll_le c.method.instructions c.shift xs c.candidates
  omega

/-- No test is blamed exactly when every candidate was accepted. -/
theorem blamed_gather_eq_none_iff (hmode : c.mode = .all) (xs : List Candidate) :
    (c.gather xs).blamed = none ↔
      c.blamed = none ∧ (c.gather xs).results.length = c.results.length + xs.length := by
  induction xs generalizing c with
  | nil => simp [gather]
  | cons x xs ih =>
      -- A rejection leaves the results one short for good.
      have rejected : ∀ (d : Collector) (sieve : Sieve), d.mode = .all → d.results = c.results →
          (((d.blame sieve).gather xs).blamed = none ↔ c.blamed = none ∧
            ((d.blame sieve).gather xs).results.length =
              c.results.length + (x :: xs).length) := by
        intro d sieve hd hresults
        have hle := length_results_gather_le (c := d.blame sieve) hd xs
        rw [ih (c := d.blame sieve) hd]
        simp only [blame, hresults, List.length_cons, reduceCtorEq, false_and, false_iff] at hle ⊢
        omega
      rw [gather]
      rcases c.add_cases x with ⟨-, hadd⟩ | ⟨p, sieve, filters, -, -, hadd⟩ |
        ⟨p, filters, -, -, hadd⟩
      · simp only [hadd, Bool.false_eq_true, if_false]
        exact rejected _ _ hmode rfl
      · simp only [hadd, Bool.false_eq_true, if_false]
        exact rejected _ _ hmode rfl
      · simp only [hadd, hmode, reduceCtorEq, decide_false, Bool.false_eq_true, if_false]
        rw [ih rfl]
        simp only [List.length_append, List.length_cons, List.length_nil]
        have hcount : c.results.length + (0 + 1) + xs.length =
            c.results.length + (xs.length + 1) := by omega
        rw [hcount]

end Collector

end Injection
