import Injection.Proofs.Computation

/-!
Computations that answer the same from all states that matter. A token that is never cancelled
may have been looked at any number of times; what a request finds out must not depend on that.
-/

namespace Injection

variable {σ ε α β : Type} {P : σ → Prop} {good : ε → Prop}

/-- From every state of `P` the computation gives the answer `r` and ends in a state of `P`. -/
def Yields (P : σ → Prop) (q : ExceptT ε (StateM σ) α) (r : Except ε α) : Prop :=
  ∀ s, P s → ∃ s', P s' ∧ q s = (r, s')

/-- From every state of `P` the computation gives the same answer. If that is an error, it is a
`good` one. -/
def Steady (P : σ → Prop) (good : ε → Prop) (q : ExceptT ε (StateM σ) α) : Prop :=
  ∃ r, Yields P q r ∧ ∀ e, r = .error e → good e

def Keeps (P : σ → Prop) (q : ExceptT ε (StateM σ) α) : Prop := ∀ s, P s → P (q s).2

section

variable {q : ExceptT ε (StateM σ) α} {f : α → ExceptT ε (StateM σ) β}

theorem yields_pure (a : α) : Yields P (pure a : ExceptT ε (StateM σ) α) (.ok a) :=
  fun s hs => ⟨s, hs, rfl⟩

theorem yields_throw (e : ε) : Yields P (throw e : ExceptT ε (StateM σ) α) (.error e) :=
  fun s hs => ⟨s, hs, rfl⟩

/-- A sequence whose first part is known to succeed goes on with the second one. -/
theorem Yields.exists_bind_eq {a : α} {s : σ} (hq : Yields P q (.ok a)) (hs : P s) :
    ∃ s', P s' ∧ (q >>= f) s = f a s' := by
  obtain ⟨s', hs', hrun⟩ := hq s hs
  exact ⟨s', hs', by rw [bind_apply, hrun]⟩

theorem Yields.bind {a : α} {r : Except ε β} (hq : Yields P q (.ok a)) (hf : Yields P (f a) r) :
    Yields P (q >>= f) r := by
  intro s hs
  obtain ⟨s₁, hs₁, hrun⟩ := hq.exists_bind_eq hs
  obtain ⟨s₂, hs₂, hrest⟩ := hf s₁ hs₁
  exact ⟨s₂, hs₂, hrun.trans hrest⟩

theorem Yields.bind_error {e : ε} (hq : Yields P q (.error e)) (f : α → ExceptT ε (StateM σ) β) :
    Yields P (q >>= f) (.error e) := by
  intro s hs
  obtain ⟨s', hs', hrun⟩ := hq s hs
  refine ⟨s', hs', ?_⟩
  rw [bind_apply, hrun]

/-- A sequence answers with the sequence of its answers. -/
theorem Yields.bind_all {x : Except ε α} {g : α → Except ε β} (hq : Yields P q x)
    (hf : ∀ a, Yields P (f a) (g a)) : Yields P (q >>= f) (x >>= g) := by
  cases x with
  | error e => exact hq.bind_error f
  | ok a => exact hq.bind (hf a)

theorem Yields.map {r : Except ε α} (hq : Yields P q r) (f : α → β) :
    Yields P (f <$> q) (f <$> r) := by
  rw [← bind_pure_comp, ← bind_pure_comp]
  exact hq.bind_all fun a => yields_pure (f a)

theorem Yields.keeps {r : Except ε α} (hq : Yields P q r) : Keeps P q := by
  intro s hs
  obtain ⟨s', hs', hrun⟩ := hq s hs
  rwa [hrun]

theorem Steady.keeps (hq : Steady P good q) : Keeps P q := by
  obtain ⟨r, hr, -⟩ := hq
  exact hr.keeps

theorem Keeps.bind (hq : Keeps P q) (hf : ∀ a, Keeps P (f a)) : Keeps P (q >>= f) := by
  intro s hs
  have hs' := hq s hs
  rw [bind_apply]
  rcases hrun : q s with ⟨e | a, s'⟩
  · rwa [hrun] at hs'
  · rw [hrun] at hs'
    exact hf a s' hs'

theorem Yields.keeps_bind {a : α} (hq : Yields P q (.ok a)) (hf : Keeps P (f a)) :
    Keeps P (q >>= f) := by
  intro s hs
  obtain ⟨s', hs', hrun⟩ := hq.exists_bind_eq hs
  rw [hrun]
  exact hf s' hs'

theorem Steady.of_yields_ok {a : α} (hq : Yields P q (.ok a)) : Steady P good q :=
  ⟨_, hq, nofun⟩

theorem steady_pure (a : α) : Steady P good (pure a : ExceptT ε (StateM σ) α) :=
  .of_yields_ok (yields_pure a)

theorem steady_throw {e : ε} (he : good e) :
    Steady P good (throw e : ExceptT ε (StateM σ) α) :=
  ⟨_, yields_throw e, fun _ h => Except.error.inj h ▸ he⟩

theorem Steady.bind (hq : Steady P good q) (hf : ∀ a, Steady P good (f a)) :
    Steady P good (q >>= f) := by
  obtain ⟨e | a, hq, hgood⟩ := hq
  · exact ⟨.error e, hq.bind_error f, fun e' h => hgood e' (congrArg _ (Except.error.inj h))⟩
  · obtain ⟨r, hr, hgood⟩ := hf a
    exact ⟨r, hq.bind hr, hgood⟩

/-- A computation whose first part is known to succeed. -/
theorem Steady.after {a : α} (hq : Yields P q (.ok a)) (hf : Steady P good (f a)) :
    Steady P good (q >>= f) := by
  obtain ⟨r, hr, hgood⟩ := hf
  exact ⟨r, hq.bind hr, hgood⟩

/-- A computation that goes on unless a test refuses it. -/
theorem Steady.unless {q : Unit → ExceptT ε (StateM σ) α} {e : ε} (p : Prop) [Decidable p]
    (he : good e) (hq : Steady P good (q ())) :
    Steady P good (if p then throw e >>= q else q ()) := by
  split
  · exact (steady_throw he).bind fun _ => hq
  · exact hq

end

namespace Query

theorem yields_ofExcept (r : Except ε α) : Yields Watch.IsLive (ofExcept r) r :=
  fun w hw => ⟨w, hw, rfl⟩

theorem steady_ofExcept {r : Except ε α} (h : ∀ e, r = .error e → good e) :
    Steady Watch.IsLive good (ofExcept r) :=
  ⟨r, yields_ofExcept r, h⟩

theorem yields_checkpoint (e : ε) : Yields Watch.IsLive (checkpoint e) (.ok ()) :=
  fun w hw => ⟨w.look, hw.look, hw.checkpoint e⟩

/-- A computation that looks at the token now and then before it goes on. -/
theorem yields_after_look (e : ε) (p : Prop) [Decidable p] {q : Unit → Query ε α}
    {r : Except ε α} (hq : Yields Watch.IsLive (q ()) r) :
    Yields Watch.IsLive (if p then checkpoint e >>= q else q ()) r := by
  split
  · exact (yields_checkpoint e).bind hq
  · exact hq

end Query

end Injection
