import Injection.Cancellation
import Mathlib.Data.List.Forall2
import Mathlib.Tactic.Common

/-!
Opening computations that may fail: what a sequence that succeeded says of its parts, and what a
loop keeps.
-/

namespace Injection

variable {ε α β σ : Type}

theorem bind_eq_ok {x : Except ε α} {f : α → Except ε β} {b : β} :
    x >>= f = .ok b ↔ ∃ a, x = .ok a ∧ f a = .ok b := by
  cases x with
  | error e => simp [bind, Except.bind]
  | ok a => simp [bind, Except.bind]

theorem bind_eq_error {x : Except ε α} {f : α → Except ε β} {e : ε} :
    x >>= f = .error e ↔ x = .error e ∨ ∃ a, x = .ok a ∧ f a = .error e := by
  cases x with
  | error e => simp [bind, Except.bind]
  | ok a => simp [bind, Except.bind]

theorem map_eq_ok {x : Except ε α} {f : α → β} {b : β} :
    x.map f = .ok b ↔ ∃ a, x = .ok a ∧ f a = b := by
  cases x <;> simp [Except.map]

theorem map_eq_error {x : Except ε α} {f : α → β} {e : ε} :
    x.map f = .error e ↔ x = .error e := by
  cases x <;> simp [Except.map]

theorem mem_toOption {x : Except ε α} {a : α} : a ∈ x.toOption ↔ x = .ok a := by
  cases x with
  | error e => simp [Except.toOption]
  | ok b => simp [Except.toOption]

/-- A loop over a list: each turn advances the state along a preorder and reaches its own goal,
and no later turn loses it. -/
theorem foldlM_advances {step : σ → α → Except ε σ} {advances : σ → σ → Prop}
    (goal : σ → α → Prop) (trans : ∀ s t u, advances s t → advances t u → advances s u)
    (keep : ∀ s t a, advances s t → goal s a → goal t a) {xs : List α} {s s' : σ}
    (refl : advances s s)
    (turn : ∀ a ∈ xs, ∀ t u, advances s t → step t a = .ok u → advances t u ∧ goal u a)
    (hfold : xs.foldlM step s = .ok s') : advances s s' ∧ ∀ a ∈ xs, goal s' a := by
  -- The induction runs over the turns still to come, from a state `t` that `s` advanced to.
  suffices h : ∀ ys : List α, (∀ a ∈ ys, a ∈ xs) → ∀ t, advances s t → ys.foldlM step t = .ok s' →
      advances s s' ∧ (∀ a, goal t a → goal s' a) ∧ ∀ a ∈ ys, goal s' a by
    obtain ⟨hs, -, hgoal⟩ := h xs (fun _ => id) s refl hfold
    exact ⟨hs, hgoal⟩
  intro ys
  induction ys with
  | nil =>
      intro _ t ht hfold
      cases hfold
      exact ⟨ht, fun _ => id, by simp⟩
  | cons a ys ih =>
      intro hmem t ht hfold
      rw [List.foldlM_cons, bind_eq_ok] at hfold
      obtain ⟨u, hstep, hrest⟩ := hfold
      obtain ⟨htu, hgoal⟩ := turn a (hmem a (by simp)) t u ht hstep
      obtain ⟨hs, hkeep, hys⟩ := ih (fun b hb => hmem b (by simp [hb])) u (trans s t u ht htu) hrest
      refine ⟨hs, fun b hb => hkeep b (keep t u b htu hb), fun b hb => ?_⟩
      rcases List.mem_cons.mp hb with rfl | hb
      · exact hkeep b hgoal
      · exact hys b hb

theorem foldlM_error {step : σ → α → Except ε σ} {P : ε → Prop} {xs : List α} {s : σ} {e : ε}
    (turn : ∀ a ∈ xs, ∀ t e, step t a = .error e → P e) (hfold : xs.foldlM step s = .error e) :
    P e := by
  induction xs generalizing s with
  | nil => cases hfold
  | cons a xs ih =>
      rw [List.foldlM_cons, bind_eq_error] at hfold
      rcases hfold with hstep | ⟨t, -, hrest⟩
      · exact turn a (by simp) s e hstep
      · exact ih (fun b hb => turn b (by simp [hb])) hrest

theorem mapM_eq_ok {f : α → Except ε β} {xs : List α} {ys : List β}
    (hmap : xs.mapM f = .ok ys) : List.Forall₂ (fun x y => f x = .ok y) xs ys := by
  induction xs generalizing ys with
  | nil =>
      cases hmap
      exact .nil
  | cons x xs ih =>
      rw [List.mapM_cons, bind_eq_ok] at hmap
      obtain ⟨y, hy, hmap⟩ := hmap
      obtain ⟨ys', hys', hmap⟩ := bind_eq_ok.mp hmap
      cases hmap
      exact .cons hy (ih hys')

theorem mapM_of_forall₂ {f : α → Except ε β} {xs : List α} {ys : List β}
    (h : List.Forall₂ (fun x y => f x = .ok y) xs ys) : xs.mapM f = .ok ys := by
  induction h with
  | nil => rfl
  | @cons x y xs ys hxy _ ih =>
      rw [List.mapM_cons, hxy]
      change (xs.mapM f >>= fun ys => Except.ok (y :: ys)) = _
      rw [ih]
      rfl

/-- Related lists: each member of one has a partner in the other. -/
theorem forall₂_exists {R : α → β → Prop} {xs : List α} {ys : List β}
    (hall : List.Forall₂ R xs ys) :
    (∀ x ∈ xs, ∃ y ∈ ys, R x y) ∧ ∀ y ∈ ys, ∃ x ∈ xs, R x y := by
  induction hall with
  | nil => simp
  | @cons x y xs ys hxy _ ih =>
      constructor
      · intro z hz
        rcases List.mem_cons.mp hz with rfl | hz
        · exact ⟨y, by simp, hxy⟩
        · obtain ⟨w, hw, hzw⟩ := ih.1 z hz
          exact ⟨w, by simp [hw], hzw⟩
      · intro z hz
        rcases List.mem_cons.mp hz with rfl | hz
        · exact ⟨x, by simp, hxy⟩
        · obtain ⟨w, hw, hwz⟩ := ih.2 z hz
          exact ⟨w, by simp [hw], hwz⟩

/-- A list whose items come from a middle list. -/
theorem exists_map_of_forall₂ {γ : Type} {R : α → β → Prop} {g : β → γ} {xs : List α}
    {zs : List γ} (h : List.Forall₂ (fun x z => ∃ y, R x y ∧ z = g y) xs zs) :
    ∃ ys, List.Forall₂ R xs ys ∧ zs = ys.map g := by
  induction h with
  | nil => exact ⟨[], .nil, rfl⟩
  | cons hxz _ ih =>
      obtain ⟨y, hy, rfl⟩ := hxz
      obtain ⟨ys, hys, rfl⟩ := ih
      exact ⟨y :: ys, .cons hy hys, rfl⟩

/-- Pairs that keep the first list and change the second item by item. -/
theorem zip_of_forall₂ {γ : Type} {R : β → γ → Prop} {as : List α} {bs : List β}
    {pairs : List (α × γ)} (hlen : as.length = bs.length)
    (h : List.Forall₂ (fun ab ac => ac.1 = ab.1 ∧ R ab.2 ac.2) (as.zip bs) pairs) :
    pairs = as.zip (pairs.map (·.2)) ∧ List.Forall₂ R bs (pairs.map (·.2)) := by
  induction as generalizing bs pairs with
  | nil =>
      cases h
      rw [List.length_eq_zero_iff.mp hlen.symm]
      exact ⟨rfl, .nil⟩
  | cons a as ih =>
      cases bs with
      | nil => cases hlen
      | cons b bs =>
          cases h with
          | cons hhead hrest =>
              obtain ⟨hpairs, hbs⟩ := ih (Nat.succ.inj hlen) hrest
              refine ⟨?_, .cons hhead.2 hbs⟩
              rw [List.map_cons, List.zip_cons_cons, ← hpairs, ← show _ = a from hhead.1]

theorem mapM_error {f : α → Except ε β} {P : ε → Prop} {xs : List α} {e : ε}
    (turn : ∀ a ∈ xs, ∀ e, f a = .error e → P e) (hmap : xs.mapM f = .error e) : P e := by
  induction xs with
  | nil => cases hmap
  | cons x xs ih =>
      rw [List.mapM_cons, bind_eq_error] at hmap
      rcases hmap with hx | ⟨y, -, hmap⟩
      · exact turn x (by simp) e hx
      · rcases bind_eq_error.mp hmap with hxs | ⟨ys, -, hpure⟩
        · exact ih (fun a ha => turn a (by simp [ha])) hxs
        · cases hpure

/-- A computation with a state that may fail goes on from where its first part succeeded. -/
theorem bind_apply {τ : Type} (q : ExceptT ε (StateM τ) α) (f : α → ExceptT ε (StateM τ) β)
    (s : τ) :
    (q >>= f) s =
      match q s with
      | (.ok a, s') => f a s'
      | (.error e, s') => (.error e, s') := by
  rcases hq : q s with ⟨_ | a, s'⟩
  · simp [bind, ExceptT.bind, ExceptT.mk, ExceptT.bindCont, StateT.bind, hq]
    rfl
  · simp [bind, ExceptT.bind, ExceptT.mk, ExceptT.bindCont, StateT.bind, hq]

namespace Query

@[simp] theorem ofExcept_apply (r : Except ε α) (w : Watch) : ofExcept r w = (r, w) := rfl

@[simp] theorem pure_apply (a : α) (w : Watch) : (pure a : Query ε α) w = (.ok a, w) := rfl

@[simp] theorem throw_apply (e : ε) (w : Watch) : (throw e : Query ε α) w = (.error e, w) := rfl

/-! ### What every answer meets -/

variable {P : α → Prop} {R : β → Prop}

/-- Whatever the token does, what the query answers meets `P`. -/
def Ensures (q : Query ε α) (P : α → Prop) : Prop :=
  ∀ w a w', q w = (.ok a, w') → P a

theorem Ensures.mono {P' : α → Prop} {q : Query ε α} (hq : Ensures q P)
    (himp : ∀ a, P a → P' a) : Ensures q P' :=
  fun w a w' hrun => himp a (hq w a w' hrun)

theorem ensures_pure {a : α} (ha : P a) : Ensures (pure a : Query ε α) P := by
  rintro w _ _ ⟨⟩
  exact ha

theorem ensures_throw (e : ε) : Ensures (throw e : Query ε α) P := by
  rintro w a w' ⟨⟩

theorem ensures_ofExcept {r : Except ε α} (hr : ∀ a, r = .ok a → P a) :
    Ensures (ofExcept r) P := by
  rintro w a _ ⟨⟩
  exact hr a rfl

theorem Ensures.bind {q : Query ε α} {f : α → Query ε β} (hq : Ensures q P)
    (hf : ∀ a, P a → Ensures (f a) R) : Ensures (q >>= f) R := by
  intro w b w' hrun
  rw [bind_apply] at hrun
  rcases hfirst : q w with ⟨_ | a, w₁⟩
  · rw [hfirst] at hrun
    cases hrun
  · rw [hfirst] at hrun
    exact hf a (hq w a w₁ hfirst) w₁ b w' hrun

/-- A query that may look at the token before it goes on. -/
theorem Ensures.after_look {cancelled : ε} (p : Prop) [Decidable p] {q : Unit → Query ε α}
    (hq : Ensures (q ()) P) : Ensures (if p then checkpoint cancelled >>= q else q ()) P := by
  split
  · exact .bind (P := fun _ => True) (fun _ _ _ _ => trivial) fun _ _ => hq
  · exact hq

theorem Ensures.of_answer {q : Query ε α} {w : Watch} {a : α} (hq : Ensures q P)
    (h : q.answer w = .ok a) : P a :=
  hq w a (q w).2 (Prod.ext h rfl)

end Query

/-- A token that no look will find cancelled. -/
def Watch.IsLive (w : Watch) : Prop := w.cancelledFrom = none

theorem Watch.IsLive.look {w : Watch} (hw : w.IsLive) : w.look.IsLive := hw

theorem Watch.IsLive.checkpoint {w : Watch} (hw : w.IsLive) (e : ε) :
    Query.checkpoint e w = (.ok (), w.look) := by
  rw [Query.checkpoint, Watch.isCancelled, hw]
  rfl

end Injection
