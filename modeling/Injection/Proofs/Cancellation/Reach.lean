import Injection.Cancellation
import Mathlib.Data.List.Induction
import Mathlib.Tactic.Common

/-!
How far a cancellation reaches.

Tokens are named by their place in the pool, and the steps taken so far tell which token was made
from which. `Derives` counts the generations between a token and one it comes from: a clone is of
the generation of its source, a child is one generation further down. A token is cancelled exactly
when some token was cancelled that shares its flag or the flag of the token it is a child of, which
is one generation and no more: what cancels a grandparent leaves the grandchild running.
-/

namespace Injection.TokenPool

variable {steps : List TokenStep} {s : TokenStep} {p : TokenPool} {g h i k a b f : Nat}

def run (steps : List TokenStep) : TokenPool := steps.foldl step new

/-- Among the steps is `s`, taken when there were `count` tokens. A token that it makes has the
place `count`. -/
def Taken (steps : List TokenStep) (s : TokenStep) (count : Nat) : Prop :=
  ∃ before after, steps = before ++ s :: after ∧ (run before).tokens.length = count

/-- The token `token` comes from `ancestor` by clone and child steps, of which `generations` are
child steps. -/
inductive Derives (steps : List TokenStep) : (generations ancestor token : Nat) → Prop where
  | refl (i : Nat) : Derives steps 0 i i
  | clone {g a i k : Nat} (h : Derives steps g a i) (made : Taken steps (.clone i) k)
      (known : i < k) : Derives steps g a k
  | child {g a i k : Nat} (h : Derives steps g a i) (made : Taken steps (.child i) k)
      (known : i < k) : Derives steps (g + 1) a k

/-- Among the steps is one that cancels the token `i`, which existed then. -/
def Called (steps : List TokenStep) (i : Nat) : Prop :=
  ∃ count, Taken steps (.cancel i) count ∧ i < count

/-! ### Histories -/

theorem run_append_singleton (steps : List TokenStep) (s : TokenStep) :
    run (steps ++ [s]) = (run steps).step s := by
  simp [run]

theorem Taken.append (ht : Taken steps s k) (after : List TokenStep) :
    Taken (steps ++ after) s k := by
  obtain ⟨before, rest, rfl, hk⟩ := ht
  exact ⟨before, rest ++ after, by simp, hk⟩

theorem taken_last (steps : List TokenStep) (s : TokenStep) :
    Taken (steps ++ [s]) s (run steps).tokens.length :=
  ⟨steps, [], rfl, rfl⟩

theorem taken_append_singleton {s' : TokenStep} :
    Taken (steps ++ [s']) s k ↔ Taken steps s k ∨ s = s' ∧ (run steps).tokens.length = k := by
  constructor
  · rintro ⟨before, after, heq, hk⟩
    rcases List.eq_nil_or_concat after with rfl | ⟨after, last, rfl⟩
    · obtain ⟨rfl, hs⟩ := List.append_inj' heq rfl
      exact .inr ⟨(List.cons.inj hs).1.symm, hk⟩
    · have heq' : steps ++ [s'] = (before ++ s :: after) ++ [last] := by simp [heq]
      exact .inl ⟨before, after, (List.append_inj' heq' rfl).1, hk⟩
  · rintro (ht | ⟨rfl, rfl⟩)
    · exact ht.append _
    · exact taken_last steps s

theorem called_append_singleton :
    Called (steps ++ [s]) i ↔ Called steps i ∨ s = .cancel i ∧ i < (run steps).tokens.length := by
  constructor
  · rintro ⟨k, ht, hi⟩
    rcases taken_append_singleton.mp ht with ht | ⟨rfl, rfl⟩
    · exact .inl ⟨k, ht, hi⟩
    · exact .inr ⟨rfl, hi⟩
  · rintro (⟨k, ht, hi⟩ | ⟨rfl, hi⟩)
    · exact ⟨k, ht.append _, hi⟩
    · exact ⟨_, taken_last steps _, hi⟩

theorem Derives.append (hd : Derives steps g a i) (after : List TokenStep) :
    Derives (steps ++ after) g a i := by
  induction hd with
  | refl i => exact .refl i
  | clone _ made known ih => exact ih.clone (made.append _) known
  | child _ made known ih => exact ih.child (made.append _) known

theorem Derives.trans (hab : Derives steps g a b) (hbi : Derives steps h b i) :
    Derives steps (g + h) a i := by
  induction hbi with
  | refl _ => exact hab
  | clone _ made known ih => exact (ih hab).clone made known
  | child _ made known ih => exact (ih hab).child made known

/-! ### Tokens stay as they are made -/

theorem tokens_step (p : TokenPool) (s : TokenStep) :
    ∃ more, (p.step s).tokens = p.tokens ++ more := by
  cases s with
  | child i =>
      rw [step]
      split
      · exact ⟨_, rfl⟩
      · exact ⟨[], by simp⟩
  | clone i =>
      rw [step]
      split
      · exact ⟨_, rfl⟩
      · exact ⟨[], by simp⟩
  | cancel i =>
      rw [step]
      split <;> exact ⟨[], by simp⟩

theorem tokens_foldl (p : TokenPool) (steps : List TokenStep) :
    ∃ more, (steps.foldl step p).tokens = p.tokens ++ more := by
  induction steps generalizing p with
  | nil => exact ⟨[], by simp⟩
  | cons s steps ih =>
      obtain ⟨front, hfront⟩ := tokens_step p s
      obtain ⟨back, hback⟩ := ih (p.step s)
      exact ⟨front ++ back, by simp [hback, hfront]⟩

/-- A token that a step makes is the same at the end. -/
theorem Taken.exists_tokens (ht : Taken steps s k) :
    ∃ (p : TokenPool) (more : List Token), p.tokens.length = k ∧
      (run steps).tokens = (p.step s).tokens ++ more := by
  obtain ⟨before, after, rfl, hk⟩ := ht
  obtain ⟨more, hmore⟩ := tokens_foldl ((run before).step s) after
  exact ⟨run before, more, hk, by simpa [run] using hmore⟩

theorem Taken.tokens_clone (ht : Taken steps (.clone i) k) (hi : i < k) :
    (run steps).tokens[k]? = (run steps).tokens[i]? := by
  obtain ⟨p, more, rfl, htokens⟩ := ht.exists_tokens
  rw [htokens]
  simp [step, List.getElem?_eq_getElem hi, List.getElem?_append_left hi]

theorem Taken.tokens_child (ht : Taken steps (.child i) k) (hi : i < k) :
    ∃ t u, (run steps).tokens[i]? = some t ∧ (run steps).tokens[k]? = some u ∧
      u.parent = some t.flag := by
  obtain ⟨p, more, rfl, htokens⟩ := ht.exists_tokens
  rw [htokens]
  refine ⟨p.tokens[i], ⟨p.flags.length, some p.tokens[i].flag⟩, ?_, ?_, rfl⟩
  · simp [step, List.getElem?_eq_getElem hi, List.getElem?_append_left hi]
  · simp [step, List.getElem?_eq_getElem hi]

theorem Taken.le_length (ht : Taken steps s k) : k ≤ (run steps).tokens.length := by
  obtain ⟨p, more, rfl, htokens⟩ := ht.exists_tokens
  obtain ⟨more', hstep⟩ := tokens_step p s
  simp [htokens, hstep]

theorem Called.lt_length (hi : Called steps i) : i < (run steps).tokens.length := by
  obtain ⟨k, ht, hlt⟩ := hi
  exact Nat.lt_of_lt_of_le hlt ht.le_length

/-- A clone of a clone is the same token. -/
theorem Derives.tokens_eq (hd : Derives steps g a i) (hg : g = 0) :
    (run steps).tokens[i]? = (run steps).tokens[a]? := by
  induction hd with
  | refl i => rfl
  | clone _ made known ih => rw [made.tokens_clone known, ih hg]
  | child => omega

/-- One generation down, a token looks at the flag of the token it comes from. -/
theorem Derives.parent_eq (hd : Derives steps g a i) (hg : g = 1) :
    ∃ t u, (run steps).tokens[a]? = some t ∧ (run steps).tokens[i]? = some u ∧
      u.parent = some t.flag := by
  induction hd with
  | refl i => omega
  | clone _ made known ih =>
      obtain ⟨t, u, ht, hu, hparent⟩ := ih hg
      exact ⟨t, u, ht, (made.tokens_clone known).trans hu, hparent⟩
  | child hd made known _ =>
      obtain ⟨t, u, ht, hu, hparent⟩ := made.tokens_child known
      exact ⟨t, u, (hd.tokens_eq (by omega)).symm.trans ht, hu, hparent⟩

/-! ### What the flags tell of the history -/

def founder (tokens : List Token) (f : Nat) : Nat := tokens.findIdx (·.flag = f)

theorem founder_append {tokens : List Token} {t : Token} (ht : t ∈ tokens) (more : List Token) :
    founder (tokens ++ more) t.flag = founder tokens t.flag := by
  have hlt : tokens.findIdx (·.flag = t.flag) < tokens.length :=
    List.findIdx_lt_length_of_exists ⟨t, ht, by simp⟩
  simp [founder, List.findIdx_append, hlt]

theorem founder_of_new_flag {tokens : List Token} {t : Token} (ht : ∀ u ∈ tokens, u.flag ≠ t.flag) :
    founder (tokens ++ [t]) t.flag = tokens.length := by
  have hnone : tokens.findIdx (·.flag = t.flag) = tokens.length :=
    List.findIdx_eq_length.mpr fun u hu => by simp [ht u hu]
  simp [founder, List.findIdx_append, hnone]

/-- The flags and tokens of a pool account for the steps that led to it: all tokens of one flag are
clones of the first of them, the flag of a parent is that of a token one generation up, and a flag
is raised when one of its tokens was cancelled. -/
structure Accounts (steps : List TokenStep) (p : TokenPool) : Prop where
  flag_lt : ∀ t ∈ p.tokens, t.flag < p.flags.length
  founder : ∀ i t, p.tokens[i]? = some t → Derives steps 0 (founder p.tokens t.flag) i
  parent : ∀ i t f, p.tokens[i]? = some t → t.parent = some f →
    ∃ a u, Derives steps 1 a i ∧ p.tokens[a]? = some u ∧ u.flag = f
  raised : ∀ f, p.isRaised f = true ↔ ∃ i t, Called steps i ∧ p.tokens[i]? = some t ∧ t.flag = f

/-- Two tokens of one flag are clones of a third. -/
theorem Accounts.exists_common {t u : Token} (hp : Accounts steps p) (hi : p.tokens[i]? = some t)
    (hk : p.tokens[k]? = some u) (hflag : t.flag = u.flag) :
    ∃ a, Derives steps 0 a i ∧ Derives steps 0 a k :=
  ⟨_, hp.founder i t hi, hflag ▸ hp.founder k u hk⟩

theorem accounts_nil : Accounts [] (run []) := by
  have hzero : ∀ i t, (run []).tokens[i]? = some t → i = 0 ∧ t = ⟨0, none⟩ := by
    intro i t ht
    cases i with
    | zero => exact ⟨rfl, (Option.some.inj ht).symm⟩
    | succ i => simp [run, new] at ht
  refine ⟨by simp [run, new], fun i t ht => ?_, fun i t f ht hf => ?_, fun f => ?_⟩
  · obtain ⟨rfl, rfl⟩ := hzero i t ht
    exact .refl 0
  · obtain ⟨rfl, rfl⟩ := hzero i t ht
    cases hf
  · constructor
    · cases f <;> simp [isRaised, run, new]
    · rintro ⟨i, t, ⟨k, ⟨before, after, hnil, -⟩, -⟩, -⟩
      simp at hnil

/-- A step that neither makes a token nor cancels one. -/
theorem Accounts.skip (hp : Accounts steps (run steps))
    (hs : ∀ i < (run steps).tokens.length, s ≠ .cancel i) :
    Accounts (steps ++ [s]) (run steps) := by
  refine ⟨hp.flag_lt, fun i t ht => (hp.founder i t ht).append _, fun i t f ht hf => ?_,
    fun f => ?_⟩
  · obtain ⟨a, u, hd, hu⟩ := hp.parent i t f ht hf
    exact ⟨a, u, hd.append _, hu⟩
  · rw [hp.raised f]
    apply exists_congr
    intro i
    rw [called_append_singleton, or_iff_left fun ⟨hcancel, hi⟩ => hs i hi hcancel]

/-- A step that makes the token `t` and raises no flag. -/
theorem Accounts.extend {t : Token} {flags : List Bool} (hp : Accounts steps (run steps))
    (hs : ∀ i, s ≠ .cancel i) (hraised : ∀ f, flags.getD f false = (run steps).isRaised f)
    (hlength : (run steps).flags.length ≤ flags.length) (hflag : t.flag < flags.length)
    (hfounder : Derives (steps ++ [s]) 0 (TokenPool.founder ((run steps).tokens ++ [t]) t.flag)
      (run steps).tokens.length)
    (hparent : ∀ f, t.parent = some f → ∃ a u,
      Derives (steps ++ [s]) 1 a (run steps).tokens.length ∧
        (run steps).tokens[a]? = some u ∧ u.flag = f) :
    Accounts (steps ++ [s]) ⟨(run steps).tokens ++ [t], flags⟩ := by
  have hcases (i : Nat) (u : Token) (hu : ((run steps).tokens ++ [t])[i]? = some u) :
      (run steps).tokens[i]? = some u ∨ i = (run steps).tokens.length ∧ u = t := by
    rcases Nat.lt_trichotomy i (run steps).tokens.length with hlt | rfl | hlt
    · exact .inl (by rwa [List.getElem?_append_left hlt] at hu)
    · exact .inr ⟨rfl, by simpa using hu.symm⟩
    · rw [List.getElem?_eq_none (by simp; omega)] at hu
      cases hu
  have hold {i : Nat} {u : Token} (hu : (run steps).tokens[i]? = some u) :
      ((run steps).tokens ++ [t])[i]? = some u := by
    rw [List.getElem?_append_left (List.getElem?_eq_some_iff.mp hu).1, hu]
  -- Each field for the tokens there were, whose derivations are kept, and then for the new one.
  refine ⟨fun u hu => ?_, fun i u hu => ?_, fun i u f hu hf => ?_, fun f => ?_⟩
  · rcases List.mem_append.mp hu with hu | hu
    · exact Nat.lt_of_lt_of_le (hp.flag_lt u hu) hlength
    · rwa [List.mem_singleton.mp hu]
  · rcases hcases i u hu with hu | ⟨rfl, rfl⟩
    · rw [founder_append (List.mem_of_getElem? hu)]
      exact (hp.founder i u hu).append _
    · exact hfounder
  · rcases hcases i u hu with hu | ⟨rfl, rfl⟩
    · obtain ⟨a, v, hd, hv, hflag⟩ := hp.parent i u f hu hf
      exact ⟨a, v, hd.append _, hold hv, hflag⟩
    · obtain ⟨a, v, hd, hv, hflag⟩ := hparent f hf
      exact ⟨a, v, hd, hold hv, hflag⟩
  · have hcalled (i : Nat) : Called (steps ++ [s]) i ↔ Called steps i := by
      rw [called_append_singleton, or_iff_left fun h => hs i h.1]
    rw [isRaised, hraised, hp.raised]
    constructor
    · rintro ⟨i, u, hi, hu, hflag⟩
      exact ⟨i, u, (hcalled i).mpr hi, hold hu, hflag⟩
    · rintro ⟨i, u, hi, hu, hflag⟩
      have hi := (hcalled i).mp hi
      rcases hcases i u hu with hu | ⟨rfl, -⟩
      · exact ⟨i, u, hi, hu, hflag⟩
      · exact absurd hi.lt_length (Nat.lt_irrefl _)

/-- A step that cancels the token `t`. -/
theorem Accounts.cancel {t : Token} (hp : Accounts steps (run steps))
    (hi : (run steps).tokens[i]? = some t) :
    Accounts (steps ++ [.cancel i]) { run steps with flags := (run steps).flags.set t.flag true } := by
  have hlt := (List.getElem?_eq_some_iff.mp hi).1
  refine ⟨by simpa using hp.flag_lt, fun j u hu => (hp.founder j u hu).append _,
    fun j u f hu hf => ?_, fun f => ?_⟩
  · obtain ⟨a, v, hd, hv⟩ := hp.parent j u f hu hf
    exact ⟨a, v, hd.append _, hv⟩
  · have hset : ((run steps).flags.set t.flag true).getD f false = true ↔
        (run steps).isRaised f = true ∨ t.flag = f := by
      have hflag := hp.flag_lt t (List.mem_of_getElem? hi)
      by_cases hf : t.flag = f
      · subst hf
        simp [hflag]
      · simp [isRaised, hf]
    rw [isRaised, hset, hp.raised]
    constructor
    · rintro (⟨j, u, hj, hu⟩ | hf)
      · exact ⟨j, u, called_append_singleton.mpr (.inl hj), hu⟩
      · exact ⟨i, t, called_append_singleton.mpr (.inr ⟨rfl, hlt⟩), hi, hf⟩
    · rintro ⟨j, u, hj, hu, hf⟩
      rcases called_append_singleton.mp hj with hj | ⟨hcancel, -⟩
      · exact .inl ⟨j, u, hj, hu, hf⟩
      · obtain rfl := TokenStep.cancel.inj hcancel
        obtain rfl := Option.some.inj (hi.symm.trans hu)
        exact .inr hf

theorem Accounts.step (hp : Accounts steps (run steps)) (s : TokenStep) :
    Accounts (steps ++ [s]) (run (steps ++ [s])) := by
  have hmade := taken_last steps s
  rw [run_append_singleton]
  -- A child makes a token and a flag, a clone a token for a known flag; a cancellation raises a flag,
  -- and a step on a token that is missing does nothing.
  cases s with
  | child i =>
      rw [TokenPool.step]
      split
      · rename_i t hi
        have hlt := (List.getElem?_eq_some_iff.mp hi).1
        refine hp.extend nofun (fun f => ?_) (by simp) (by simp) ?_ fun f hf => ?_
        · -- The new flag is not raised, which is also what a missing flag reads as.
          rw [isRaised, List.getD_eq_getElem?_getD, List.getD_eq_getElem?_getD, List.getElem?_append]
          split
          · rfl
          · rename_i hf
            rw [List.getElem?_eq_none (Nat.le_of_not_lt hf)]
            cases f - (run steps).flags.length <;> simp
        · rw [founder_of_new_flag fun u hu => Nat.ne_of_lt (hp.flag_lt u hu)]
          exact .refl _
        · obtain rfl := Option.some.inj hf
          exact ⟨i, t, (Derives.refl i).child hmade hlt, hi, rfl⟩
      · exact hp.skip nofun
  | clone i =>
      rw [TokenPool.step]
      split
      · rename_i t hi
        have hlt := (List.getElem?_eq_some_iff.mp hi).1
        have hmem := List.mem_of_getElem? hi
        refine hp.extend nofun (fun f => rfl) (Nat.le_refl _) (hp.flag_lt t hmem) ?_ fun f hf => ?_
        · rw [founder_append hmem]
          exact ((hp.founder i t hi).append _).clone hmade hlt
        · obtain ⟨a, u, hd, hu⟩ := hp.parent i t f hi hf
          exact ⟨a, u, (hd.append _).clone hmade hlt, hu⟩
      · exact hp.skip nofun
  | cancel i =>
      rw [TokenPool.step]
      split
      · rename_i t hi
        exact hp.cancel hi
      · rename_i hi
        refine hp.skip fun j hj hij => ?_
        rw [← TokenStep.cancel.inj hij] at hj
        rw [List.getElem?_eq_getElem hj] at hi
        cases hi

theorem accounts_run (steps : List TokenStep) : Accounts steps (run steps) := by
  induction steps using List.reverseRecOn with
  | nil => exact accounts_nil
  | append_singleton steps s ih => exact ih.step s

/-! ### Reach -/

/-- A flag is raised when a token was cancelled that is a clone of one with this flag. -/
theorem isRaised_iff {t : Token} (hi : (run steps).tokens[i]? = some t) :
    (run steps).isRaised t.flag = true ↔
      ∃ a b, Derives steps 0 a i ∧ Derives steps 0 a b ∧ Called steps b := by
  have hp := accounts_run steps
  rw [hp.raised]
  constructor
  · rintro ⟨b, u, hb, hu, hflag⟩
    obtain ⟨a, hai, hab⟩ := hp.exists_common hi hu hflag.symm
    exact ⟨a, b, hai, hab, hb⟩
  · rintro ⟨a, b, hai, hab, hb⟩
    have hsame := (hab.tokens_eq rfl).trans (hai.tokens_eq rfl).symm
    exact ⟨b, t, hb, hsame.trans hi, rfl⟩

/-- The flag of a parent is raised when a token was cancelled that is a clone of one a generation
up. -/
theorem any_isRaised_parent_iff {t : Token} (hi : (run steps).tokens[i]? = some t) :
    t.parent.any (run steps).isRaised = true ↔
      ∃ a b, Derives steps 1 a i ∧ Derives steps 0 a b ∧ Called steps b := by
  have hp := accounts_run steps
  rw [Option.any_eq_true]
  constructor
  · rintro ⟨f, hf, hraised⟩
    obtain ⟨k, u, hki, hu, rfl⟩ := hp.parent i t f hi hf
    obtain ⟨a, b, hak, hab, hb⟩ := (isRaised_iff hu).mp hraised
    exact ⟨a, b, Nat.zero_add 1 ▸ hak.trans hki, hab, hb⟩
  · rintro ⟨a, b, hai, hab, hb⟩
    obtain ⟨u, v, hu, hv, hparent⟩ := hai.parent_eq rfl
    obtain rfl := Option.some.inj (hi.symm.trans hv)
    exact ⟨u.flag, hparent, (isRaised_iff hu).mpr ⟨a, b, .refl a, hab, hb⟩⟩

/-- After any steps, a token is cancelled exactly when a token was cancelled that is a clone of it,
of the token it is a child of, or of a token that one of these is a clone of. -/
theorem isCancelled_iff_reached (steps : List TokenStep) (i : Nat) :
    (run steps).states[i]? = some true ↔
      ∃ g a b, g ≤ 1 ∧ Derives steps g a i ∧ Derives steps 0 a b ∧ Called steps b := by
  rw [states, List.getElem?_map, Option.map_eq_some_iff]
  constructor
  · rintro ⟨t, hi, hcancelled⟩
    rcases Bool.or_eq_true_iff.mp hcancelled with hraised | hraised
    · obtain ⟨a, b, h⟩ := (isRaised_iff hi).mp hraised
      exact ⟨0, a, b, Nat.zero_le 1, h⟩
    · obtain ⟨a, b, h⟩ := (any_isRaised_parent_iff hi).mp hraised
      exact ⟨1, a, b, Nat.le_refl 1, h⟩
  · rintro ⟨g, a, b, hg, hai, hab, hb⟩
    rcases Nat.le_one_iff_eq_zero_or_eq_one.mp hg with rfl | rfl
    · have hsame := (hab.tokens_eq rfl).trans (hai.tokens_eq rfl).symm
      have hi := hsame.symm.trans (List.getElem?_eq_getElem hb.lt_length)
      exact ⟨_, hi, Bool.or_eq_true_iff.mpr (.inl ((isRaised_iff hi).mpr ⟨a, b, hai, hab, hb⟩))⟩
    · obtain ⟨u, t, -, hi, -⟩ := hai.parent_eq rfl
      exact ⟨t, hi, Bool.or_eq_true_iff.mpr
        (.inr ((any_isRaised_parent_iff hi).mpr ⟨a, b, hai, hab, hb⟩))⟩

def threeGenerations : List TokenStep := [.child 0, .child 1, .cancel 0]

/-- The grandchild goes on although the token it comes from was cancelled. -/
theorem grandchild_not_cancelled :
    (run threeGenerations).states = [true, true, false] ∧
      ∃ g a b, Derives threeGenerations g a 2 ∧ Derives threeGenerations 0 a b ∧
        Called threeGenerations b := by
  have hfirst : Taken threeGenerations (.child 0) 1 := ⟨[], _, rfl, rfl⟩
  have hsecond : Taken threeGenerations (.child 1) 2 := ⟨[.child 0], _, rfl, rfl⟩
  have hcancel : Taken threeGenerations (.cancel 0) 3 := ⟨[.child 0, .child 1], [], rfl, rfl⟩
  exact ⟨by decide, 2, 0, 0,
    ((Derives.refl 0).child hfirst (by decide)).child hsecond (by decide), .refl 0,
    3, hcancel, by decide⟩

end Injection.TokenPool
