import Mathlib

set_option autoImplicit false

namespace Quasiaffine

variable {α β ε : Type}

theorem bind_eq_ok_iff {x : Except ε α} {f : α → Except ε β} {b : β} :
    (x >>= f) = .ok b ↔ ∃ a, x = .ok a ∧ f a = .ok b := by
  cases x <;> simp [bind, Except.bind]

theorem eq_ok_of_toOption {x : Except ε α} {a : α} (h : x.toOption = some a) : x = .ok a := by
  cases x with
  | error => cases h
  | ok => exact congrArg _ (Option.some.inj h)

theorem foldlM_induction {f : β → α → Except ε β} {P : β → Prop} {l : List α} {b b' : β}
    (step : ∀ b, ∀ a ∈ l, ∀ b', f b a = .ok b' → P b → P b') (h : P b)
    (hok : l.foldlM f b = .ok b') : P b' := by
  induction l generalizing b with
  | nil => exact Except.ok.inj hok ▸ h
  | cons a l ih =>
    rw [List.foldlM_cons, bind_eq_ok_iff] at hok
    obtain ⟨b₁, h₁, hok⟩ := hok
    exact ih (fun b a' ha' => step b a' (List.mem_cons_of_mem _ ha'))
      (step b a List.mem_cons_self b₁ h₁ h) hok

theorem foldlM_eq_ok {f : β → α → Except ε β} {P : β → Prop} {l : List α} {b : β}
    (step : ∀ b, ∀ a ∈ l, P b → ∃ b', f b a = .ok b' ∧ P b') (h : P b) :
    ∃ b', l.foldlM f b = .ok b' ∧ P b' := by
  induction l generalizing b with
  | nil => exact ⟨b, rfl, h⟩
  | cons a l ih =>
    obtain ⟨b₁, hok, h₁⟩ := step b a List.mem_cons_self h
    obtain ⟨b₂, hok₂, h₂⟩ := ih (fun b a ha => step b a (List.mem_cons_of_mem _ ha)) h₁
    refine ⟨b₂, ?_, h₂⟩
    rw [List.foldlM_cons, hok]
    exact hok₂

theorem foldlM_range_eq_ok {f : β → Nat → Except ε β} {P : Nat → β → Prop} {n : Nat} {b : β}
    (zero : P 0 b) (step : ∀ i < n, ∀ b, P i b → ∃ b', f b i = .ok b' ∧ P (i + 1) b') :
    ∃ b', (List.range n).foldlM f b = .ok b' ∧ P n b' := by
  induction n with
  | zero => exact ⟨b, rfl, zero⟩
  | succ n ih =>
    obtain ⟨b₁, hok₁, h₁⟩ := ih fun i hi => step i (by omega)
    obtain ⟨b₂, hok₂, h₂⟩ := step n (by omega) b₁ h₁
    refine ⟨b₂, ?_, h₂⟩
    rw [List.range_succ, List.foldlM_append, hok₁]
    simp only [List.foldlM_cons, List.foldlM_nil, bind, Except.bind, hok₂, pure, Except.pure]

theorem mapM_eq_ok {f : α → Except ε β} {R : α → β → Prop} {l : List α}
    (step : ∀ a ∈ l, ∃ b, f a = .ok b ∧ R a b) :
    ∃ ys, l.mapM f = .ok ys ∧ List.Forall₂ R l ys := by
  induction l with
  | nil => exact ⟨[], rfl, .nil⟩
  | cons a l ih =>
    obtain ⟨b, hok, hb⟩ := step a List.mem_cons_self
    obtain ⟨ys, hoks, hys⟩ := ih fun a ha => step a (List.mem_cons_of_mem _ ha)
    refine ⟨b :: ys, ?_, .cons hb hys⟩
    rw [List.mapM_cons, hok]
    simp only [bind, Except.bind, hoks, pure, Except.pure]

theorem mapM_eq_ok_or {f : α → Except ε β} {R : α → β → Prop} {e : ε} {l : List α}
    (step : ∀ a ∈ l, (∃ b, f a = .ok b ∧ R a b) ∨ f a = .error e) :
    (∃ ys, l.mapM f = .ok ys ∧ List.Forall₂ R l ys) ∨ l.mapM f = .error e := by
  induction l with
  | nil => exact .inl ⟨[], rfl, .nil⟩
  | cons a l ih =>
    rw [List.mapM_cons]
    rcases step a List.mem_cons_self with ⟨b, hok, hb⟩ | herr
    · rcases ih fun a ha => step a (List.mem_cons_of_mem _ ha) with ⟨ys, hoks, hys⟩ | herr
      · exact .inl ⟨b :: ys, by simp only [hok, hoks, bind, Except.bind, pure, Except.pure],
          .cons hb hys⟩
      · exact .inr (by simp only [hok, herr, bind, Except.bind])
    · exact .inr (by rw [herr]; rfl)

theorem forall₂_of_mapM_eq_ok {f : α → Except ε β} {l : List α} {ys : List β}
    (hok : l.mapM f = .ok ys) : List.Forall₂ (fun a b => f a = .ok b) l ys := by
  induction l generalizing ys with
  | nil => exact Except.ok.inj hok ▸ .nil
  | cons a l ih =>
    simp only [List.mapM_cons, bind_eq_ok_iff] at hok
    obtain ⟨b, hb, bs, hbs, hok⟩ := hok
    exact Except.ok.inj hok ▸ .cons hb (ih hbs)

theorem mapM_eq_ok_map {f : α → Except ε β} {g : α → β} {xs : List α}
    (step : ∀ a ∈ xs, f a = .ok (g a)) : xs.mapM f = .ok (xs.map g) := by
  obtain ⟨ys, hok, hys⟩ := mapM_eq_ok (R := fun a b => b = g a) fun a ha => ⟨_, step a ha, rfl⟩
  rw [hok]
  refine congrArg _ ?_
  clear hok step
  induction hys with
  | nil => rfl
  | cons h _ ih => rw [h, ih, List.map_cons]

theorem exists_mem_iff_of_forall₂ {R : α → β → Prop} {p : α → Prop} {q : β → Prop} {xs : List α}
    {ys : List β} (h : List.Forall₂ R xs ys) (hpq : ∀ a b, R a b → (q b ↔ p a)) :
    (∃ b ∈ ys, q b) ↔ ∃ a ∈ xs, p a := by
  induction h with
  | nil => simp
  | cons hab _ ih => simp [hpq _ _ hab, ih]

theorem exists_mem_of_forall₂ {R : α → β → Prop} {xs : List α} {ys : List β}
    (h : List.Forall₂ R xs ys) {a : α} (ha : a ∈ xs) : ∃ b ∈ ys, R a b := by
  induction h with
  | nil => simp at ha
  | cons hab _ ih =>
    rcases List.mem_cons.1 ha with rfl | ha
    · exact ⟨_, List.mem_cons_self, hab⟩
    · obtain ⟨b, hb, h⟩ := ih ha
      exact ⟨b, List.mem_cons_of_mem _ hb, h⟩

theorem exists_mem_of_forall₂_right {R : α → β → Prop} {xs : List α} {ys : List β}
    (h : List.Forall₂ R xs ys) {b : β} (hb : b ∈ ys) : ∃ a ∈ xs, R a b :=
  exists_mem_of_forall₂ h.flip hb

theorem forall_mem_of_forall₂ {R : α → β → Prop} {q : β → Prop} {xs : List α} {ys : List β}
    (h : List.Forall₂ R xs ys) (hq : ∀ a ∈ xs, ∀ b, R a b → q b) : ∀ b ∈ ys, q b := by
  induction h with
  | nil => simp
  | cons hab _ ih =>
    rw [List.forall_mem_cons]
    exact ⟨hq _ List.mem_cons_self _ hab, ih fun a ha => hq a (List.mem_cons_of_mem _ ha)⟩

section Flatten

variable {R : α → List β → Prop} {xs : List α} {yss : List (List β)}

theorem exists_of_mem_flatten (h : List.Forall₂ R xs yss) {b : β} (hb : b ∈ yss.flatten) :
    ∃ a ∈ xs, ∃ ys, R a ys ∧ b ∈ ys := by
  obtain ⟨ys, hys, hb⟩ := List.mem_flatten.1 hb
  obtain ⟨a, ha, h⟩ := exists_mem_of_forall₂_right h hys
  exact ⟨a, ha, ys, h, hb⟩

theorem exists_subset_flatten (h : List.Forall₂ R xs yss) {a : α} (ha : a ∈ xs) :
    ∃ ys, R a ys ∧ ys ⊆ yss.flatten := by
  obtain ⟨ys, hys, h⟩ := exists_mem_of_forall₂ h ha
  exact ⟨ys, h, fun b hb => List.mem_flatten.2 ⟨ys, hys, hb⟩⟩

end Flatten

theorem pairwise_of_forall₂ {R : α → β → Prop} {P : α → α → Prop} {Q : β → β → Prop}
    {xs : List α} {ys : List β} (h : List.Forall₂ R xs ys) (hp : xs.Pairwise P)
    (hpq : ∀ a a' b b', P a a' → R a b → R a' b' → Q b b') : ys.Pairwise Q := by
  induction h with
  | nil => exact .nil
  | cons hab hrest ih =>
    rw [List.pairwise_cons] at hp
    refine List.pairwise_cons.2 ⟨?_, ih hp.2⟩
    exact forall_mem_of_forall₂ hrest fun a' ha' b' h => hpq _ _ _ _ (hp.1 a' ha') hab h

section SameOutcome

variable {γ δ : Type}

inductive SameOutcome (R : α → β → Prop) : Except ε α → Except ε β → Prop
  | ok {a : α} {b : β} (h : R a b) : SameOutcome R (.ok a) (.ok b)
  | error (e : ε) : SameOutcome R (.error e) (.error e)

variable {R : α → β → Prop} {S : γ → δ → Prop}

theorem SameOutcome.bind {x : Except ε α} {y : Except ε β} {f : α → Except ε γ}
    {g : β → Except ε δ} (h : SameOutcome R x y) (hk : ∀ a b, R a b → SameOutcome S (f a) (g b)) :
    SameOutcome S (x >>= f) (y >>= g) := by
  cases h with
  | ok hab => exact hk _ _ hab
  | error e => exact .error e

theorem SameOutcome.imp {Q : α → β → Prop} {x : Except ε α} {y : Except ε β}
    (h : SameOutcome R x y) (hq : ∀ a b, R a b → Q a b) : SameOutcome Q x y := by
  cases h with
  | ok hab => exact .ok (hq _ _ hab)
  | error e => exact .error e

theorem SameOutcome.same_bind {x : Except ε α} {f : α → Except ε γ} {g : α → Except ε δ}
    (hk : ∀ a, SameOutcome S (f a) (g a)) : SameOutcome S (x >>= f) (x >>= g) := by
  cases x with
  | ok a => exact hk a
  | error e => exact .error e

theorem SameOutcome.mapM {f : α → Except ε γ} {g : β → Except ε δ} {xs : List α} {ys : List β}
    (h : List.Forall₂ R xs ys) (hfg : ∀ a b, R a b → SameOutcome S (f a) (g b)) :
    SameOutcome (List.Forall₂ S) (xs.mapM f) (ys.mapM g) := by
  induction h with
  | nil => exact .ok .nil
  | cons hab _ ih =>
    rw [List.mapM_cons, List.mapM_cons]
    exact (hfg _ _ hab).bind fun _ _ hcd => ih.bind fun _ _ hrest => .ok (.cons hcd hrest)

end SameOutcome

end Quasiaffine
