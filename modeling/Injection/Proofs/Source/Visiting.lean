import Injection.Source.Walk
import Mathlib.Tactic.Common

/-!
Walks with a visitor. A walk shows its visitor the events of the unit one after the other and ends
with the first at which the visitor asks to stop, however deep in the body it stands. So the visitor
sees a prefix of the events.
-/

namespace Injection.Source

variable {σ : Type} {visit : σ → Event → σ × Bool}

def visitUntil (visit : σ → Event → σ × Bool) (state : σ) : List Event → σ × Bool
  | [] => (state, false)
  | event :: rest => andThen (visit state event) (visitUntil visit · rest)

@[simp] theorem andThen_going (state : σ) (next : σ → σ × Bool) :
    andThen (state, false) next = next state := rfl

@[simp] theorem andThen_stopped (state : σ) (next : σ → σ × Bool) :
    andThen (state, true) next = (state, true) := rfl

theorem andThen_assoc (shown : σ × Bool) (f g : σ → σ × Bool) :
    andThen (andThen shown f) g = andThen shown fun state => andThen (f state) g := by
  obtain ⟨state, stopped⟩ := shown
  cases stopped <;> rfl

@[simp] theorem andThen_pure (shown : σ × Bool) : andThen shown (·, false) = shown := by
  obtain ⟨state, stopped⟩ := shown
  cases stopped <;> rfl

@[simp] theorem visitUntil_nil (state : σ) : visitUntil visit state [] = (state, false) := rfl

@[simp] theorem visitUntil_cons (state : σ) (event : Event) (rest : List Event) :
    visitUntil visit state (event :: rest) =
      andThen (visit state event) (visitUntil visit · rest) := rfl

theorem visitUntil_append (state : σ) (events rest : List Event) :
    visitUntil visit state (events ++ rest) =
      andThen (visitUntil visit state events) (visitUntil visit · rest) := by
  induction events generalizing state with
  | nil => rfl
  | cons event events ih => simp only [List.cons_append, visitUntil_cons, andThen_assoc, ih]

/-- Parts that are shown one after the other are shown like all of their events. -/
theorem foldl_eq_visitUntil {α : Type} {show? : α → σ → σ × Bool} {events : α → List Event}
    {as : List α} (h : ∀ a ∈ as, ∀ state, show? a state = visitUntil visit state (events a))
    (shown : σ × Bool) :
    as.foldl (fun shown a => andThen shown (show? a)) shown =
      andThen shown (visitUntil visit · (as.flatMap events)) := by
  induction as generalizing shown with
  | nil => exact (andThen_pure shown).symm
  | cons a as ih =>
      obtain ⟨ha, has⟩ := List.forall_mem_cons.mp h
      simp only [List.foldl_cons, List.flatMap_cons, ih has, andThen_assoc, ha, visitUntil_append]

namespace Body

variable {b : Body}

theorem walkWithin_eq_visitUntil (depth : Nat) (n : WalkRoot) (state : σ) :
    b.walkWithin visit depth n state = visitUntil visit state (b.eventsWithin depth n) := by
  induction depth generalizing n state with
  | zero => rfl
  | succ depth ih =>
      refine foldl_eq_visitUntil (fun item _ state => ?_) (state, false)
      cases item with
      | event e => exact (andThen_pure _).symm
      | part m => exact ih m state

/-- A walk shows its visitor the events of the unit until it asks to stop. -/
theorem walk_eq_visitUntil (b : Body) (root : WalkRoot) (visit : σ → Event → σ × Bool)
    (start : σ) : b.walk root visit start = visitUntil visit start (b.events root) :=
  walkWithin_eq_visitUntil _ root start

end Body

/-! ### What a visitor sees -/

/-- A visitor that also writes down the events it is shown. -/
def recording (visit : σ → Event → σ × Bool) (state : σ × List Event) (event : Event) :
    (σ × List Event) × Bool :=
  (((visit state.1 event).1, state.2 ++ [event]), (visit state.1 event).2)

/-- What is written down is a prefix of the events, and all of them if the visitor never asks to
stop. -/
theorem visitUntil_recording (events seen : List Event) (state : σ) :
    ∃ shown, shown <+: events ∧
      visitUntil (recording visit) (state, seen) events =
        (((visitUntil visit state events).1, seen ++ shown), (visitUntil visit state events).2) ∧
      ((visitUntil visit state events).2 = false → shown = events) := by
  induction events generalizing state seen with
  | nil => exact ⟨[], List.prefix_rfl, by simp, fun _ => rfl⟩
  | cons event events ih =>
      rw [visitUntil_cons, visitUntil_cons, recording]
      obtain ⟨next, stopped⟩ := visit state event
      cases stopped with
      | true => exact ⟨[event], ⟨events, rfl⟩, rfl, fun h => nomatch h⟩
      | false =>
          obtain ⟨shown, hprefix, hshown, hall⟩ := ih (seen ++ [event]) next
          refine ⟨event :: shown, List.prefix_cons_inj event |>.mpr hprefix, ?_, fun h => ?_⟩
          · simpa using hshown
          · rw [hall h]

/-- A visitor that writes down what it finds in the events and never asks to stop finds all. -/
theorem visitUntil_collecting {α : Type} (find? : Event → Option α) (events : List Event)
    (found : List α) :
    visitUntil (fun found event => (found ++ (find? event).toList, false)) found events =
      (found ++ events.filterMap find?, false) := by
  induction events generalizing found with
  | nil => simp
  | cons event events ih =>
      rw [visitUntil_cons, andThen_going, ih, List.filterMap_cons]
      cases find? event <;> simp

end Injection.Source
