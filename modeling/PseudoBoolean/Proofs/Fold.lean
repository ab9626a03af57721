import Mathlib

/-! # Folds that may fail

A fold with steps that may fail succeeds exactly if no step fails, and then its result
is that of a plain fold.
-/

namespace PseudoBoolean

theorem bind_eq_ok {ε β γ : Type} {x : Except ε β} {f : β → Except ε γ} {c : γ}
    (h : x >>= f = .ok c) : ∃ b, x = .ok b ∧ f b = .ok c := by
  cases x with
  | error e => cases h
  | ok b => exact ⟨b, rfl, h⟩

theorem bind_bind_eq_ok_iff {ε β γ δ : Type} {x : Except ε β} {y : Except ε γ} {f : β → γ → δ}
    {d : δ} : (do let b ← x; let c ← y; return f b c) = .ok d ↔
      ∃ b c, x = .ok b ∧ y = .ok c ∧ d = f b c := by
  constructor
  · intro h
    obtain ⟨b, hb, h⟩ := bind_eq_ok h
    obtain ⟨c, hc, h⟩ := bind_eq_ok h
    cases h
    exact ⟨b, c, hb, hc, rfl⟩
  · rintro ⟨b, c, rfl, rfl, rfl⟩
    rfl

theorem bind_eq_error {ε β γ : Type} {x : Except ε β} {f : β → Except ε γ} {err : ε}
    (h : x >>= f = .error err) : x = .error err ∨ ∃ b, x = .ok b ∧ f b = .error err := by
  cases x with
  | error e =>
    cases h
    exact .inl rfl
  | ok b => exact .inr ⟨b, rfl, h⟩

theorem map_eq_ok_iff {ε β γ : Type} {x : Except ε β} {f : β → γ} {c : γ} :
    x.map f = .ok c ↔ ∃ b, x = .ok b ∧ f b = c := by
  cases x with
  | error e => exact ⟨nofun, nofun⟩
  | ok b => simp [Except.map]

theorem map_eq_error_iff {ε β γ : Type} {x : Except ε β} {f : β → γ} {err : ε} :
    x.map f = .error err ↔ x = .error err := by
  cases x with
  | error e => simp [Except.map]
  | ok b => exact ⟨nofun, nofun⟩

theorem exists_eq_ok {ε β : Type} {x : Except ε β} (h : x.toOption.isSome = true) :
    ∃ b, x = .ok b := by
  cases x with
  | error err => cases h
  | ok b => exact ⟨b, rfl⟩

theorem exists_eq_error_iff {ε β : Type} {x : Except ε β} :
    (∃ err, x = .error err) ↔ ¬ ∃ b, x = .ok b := by
  cases x with
  | error err => simp
  | ok b => simp

variable {ε β γ : Type} {f : γ → β → Except ε γ} {l : List β}

theorem foldlM_eq_ok {g : γ → β → γ} (h : ∀ e ∈ l, ∀ a, f a e = .ok (g a e)) (a : γ) :
    l.foldlM f a = .ok (l.foldl g a) := by
  induction l generalizing a with
  | nil => rfl
  | cons e rest ih =>
    rw [List.foldlM_cons, h e List.mem_cons_self]
    exact ih (fun d hd => h d (List.mem_cons_of_mem _ hd)) (g a e)

/-- A map with steps that may fail succeeds with the results of its steps. -/
theorem mapM_eq_ok_iff {f : β → Except ε γ} {m : List γ} :
    l.mapM f = .ok m ↔ List.Forall₂ (fun e c => f e = .ok c) l m := by
  induction l generalizing m with
  | nil =>
    rw [List.forall₂_nil_left_iff]
    exact ⟨fun h => by cases h; rfl, fun h => by cases h; rfl⟩
  | cons e rest ih =>
    rw [List.mapM_cons]
    constructor
    · intro h
      obtain ⟨c, hc, h⟩ := bind_eq_ok h
      obtain ⟨cs, hcs, h⟩ := bind_eq_ok h
      cases h
      exact .cons hc (ih.mp hcs)
    · rintro (_ | ⟨hc, hcs⟩)
      rw [hc, ih.mpr hcs]
      rfl

theorem mapM_eq_ok {g : β → γ} {f : β → Except ε γ} (h : ∀ e ∈ l, f e = .ok (g e)) :
    l.mapM f = .ok (l.map g) := by
  rw [mapM_eq_ok_iff, List.forall₂_map_right_iff, List.forall₂_same]
  exact h

theorem exists_of_forall₂ {R : β → γ → Prop} {m : List γ} (h : List.Forall₂ R l m) :
    ∀ e ∈ l, ∃ c, R e c ∧ c ∈ m := by
  induction h with
  | nil => exact fun e he => nomatch he
  | cons hc _ ih =>
    refine List.forall_mem_cons.mpr ⟨⟨_, hc, List.mem_cons_self⟩, fun e he => ?_⟩
    obtain ⟨c, hc, hmem⟩ := ih e he
    exact ⟨c, hc, List.mem_cons_of_mem _ hmem⟩

theorem exists_of_mapM_eq_ok {f : β → Except ε γ} {m : List γ} (h : l.mapM f = .ok m) :
    ∀ e ∈ l, ∃ c, f e = .ok c ∧ c ∈ m := exists_of_forall₂ (mapM_eq_ok_iff.mp h)

theorem exists_of_mem_mapM {f : β → Except ε γ} {m : List γ} (h : l.mapM f = .ok m) :
    ∀ c ∈ m, ∃ e ∈ l, f e = .ok c := by
  intro c hc
  obtain ⟨e, hec, he⟩ := exists_of_forall₂ (mapM_eq_ok_iff.mp h).flip c hc
  exact ⟨e, he, hec⟩

theorem exists_mapM_iff {f : β → Except ε γ} :
    (∃ m, l.mapM f = .ok m) ↔ ∀ e ∈ l, ∃ c, f e = .ok c := by
  induction l with
  | nil => exact ⟨fun _ e he => absurd he List.not_mem_nil, fun _ => ⟨[], rfl⟩⟩
  | cons d rest ih =>
    rw [List.forall_mem_cons, ← ih]
    simp only [mapM_eq_ok_iff, List.forall₂_cons_left_iff]
    constructor
    · rintro ⟨_, c, cs, hc, hcs, rfl⟩
      exact ⟨⟨c, hc⟩, cs, hcs⟩
    · rintro ⟨⟨c, hc⟩, cs, hcs⟩
      exact ⟨_, c, cs, hc, hcs, rfl⟩

theorem foldlM_congr {g : γ → β → Except ε γ} (h : ∀ e ∈ l, ∀ a, f a e = g a e) (a : γ) :
    l.foldlM f a = l.foldlM g a := by
  induction l generalizing a with
  | nil => rfl
  | cons e rest ih =>
    rw [List.foldlM_cons, List.foldlM_cons, h e List.mem_cons_self]
    exact congrArg _ (funext fun b => ih (fun d hd => h d (List.mem_cons_of_mem _ hd)) b)

theorem mapM_congr {f g : β → Except ε γ} (h : ∀ e ∈ l, f e = g e) : l.mapM f = l.mapM g := by
  induction l with
  | nil => rfl
  | cons e rest ih =>
    rw [List.mapM_cons, List.mapM_cons, h e List.mem_cons_self,
      ih fun d hd => h d (List.mem_cons_of_mem _ hd)]

/-- What every successful step shows of its element holds of all elements of a
successful fold. -/
theorem forall_of_foldlM_eq_ok {P : β → Prop} (h : ∀ e a b, f a e = .ok b → P e) {a b : γ}
    (hl : l.foldlM f a = .ok b) : ∀ e ∈ l, P e := by
  induction l generalizing a with
  | nil => exact fun e he => nomatch he
  | cons d rest ih =>
    rw [List.foldlM_cons] at hl
    cases hd : f a d with
    | error err =>
      rw [hd] at hl
      cases hl
    | ok c =>
      rw [hd] at hl
      intro e he
      obtain rfl | he := List.mem_cons.mp he
      · exact h e a c hd
      · exact ih hl e he

theorem exists_of_foldlM_eq_error {a : γ} {err : ε} (h : l.foldlM f a = .error err) :
    ∃ e ∈ l, ∃ b, f b e = .error err := by
  induction l generalizing a with
  | nil => cases h
  | cons d rest ih =>
    rw [List.foldlM_cons] at h
    obtain hd | ⟨b, -, h⟩ := bind_eq_error h
    · exact ⟨d, List.mem_cons_self, a, hd⟩
    · obtain ⟨e, he, hfail⟩ := ih h
      exact ⟨e, List.mem_cons_of_mem _ he, hfail⟩

/-- A map with steps that may fail ends with the error of the first step that fails. -/
theorem mapM_eq_error_iff {f : β → Except ε γ} {err : ε} : l.mapM f = .error err ↔
    ∃ before e after, l = before ++ e :: after ∧ (∀ d ∈ before, ∃ c, f d = .ok c) ∧
      f e = .error err := by
  induction l with
  | nil => exact ⟨nofun, fun ⟨before, e, after, h, _⟩ => by simp at h⟩
  | cons d rest ih =>
    rw [List.mapM_cons]
    constructor
    · intro h
      obtain hd | ⟨c, hc, h⟩ := bind_eq_error h
      · exact ⟨[], d, rest, rfl, nofun, hd⟩
      · obtain h | ⟨cs, -, h⟩ := bind_eq_error h
        · obtain ⟨before, e, after, rfl, hbefore, he⟩ := ih.mp h
          exact ⟨d :: before, e, after, rfl, List.forall_mem_cons.mpr ⟨⟨c, hc⟩, hbefore⟩, he⟩
        · cases h
    · rintro ⟨_ | ⟨d', before⟩, e, after, h, hbefore, he⟩
      · obtain ⟨rfl, rfl⟩ := List.cons_eq_cons.mp h
        rw [he]
        rfl
      · obtain ⟨rfl, rfl⟩ := List.cons_eq_cons.mp h
        obtain ⟨⟨c, hc⟩, hbefore⟩ := List.forall_mem_cons.mp hbefore
        rw [hc, ih.mpr ⟨before, e, after, rfl, hbefore, he⟩]
        rfl

theorem exists_of_mapM_eq_error {f : β → Except ε γ} {err : ε} (h : l.mapM f = .error err) :
    ∃ e ∈ l, f e = .error err := by
  obtain ⟨before, e, after, rfl, -, he⟩ := mapM_eq_error_iff.mp h
  exact ⟨e, List.mem_append_right before List.mem_cons_self, he⟩

theorem foldl_add_eq_sum (f : β → Rat) (a : Rat) (l : List β) :
    l.foldl (fun sum e => sum + f e) a = a + (l.map f).sum := by
  induction l generalizing a with
  | nil => simp
  | cons e rest ih => rw [List.foldl_cons, ih, List.map_cons, List.sum_cons, add_assoc]

theorem foldl_mul_eq_prod (f : β → Rat) (a : Rat) (l : List β) :
    l.foldl (fun product e => product * f e) a = a * (l.map f).prod := by
  induction l generalizing a with
  | nil => simp
  | cons e rest ih => rw [List.foldl_cons, ih, List.map_cons, List.prod_cons, mul_assoc]

theorem sum_flatMap_mul (f : β → Rat) (g : γ → Rat) (l : List β) (m : List γ) :
    (l.flatMap fun e => m.map fun d => f e * g d).sum = (l.map f).sum * (m.map g).sum := by
  induction l with
  | nil => simp
  | cons e rest ih =>
    rw [List.flatMap_cons, List.sum_append, ih, List.map_cons, List.sum_cons, add_mul,
      List.sum_map_mul_left]

end PseudoBoolean
