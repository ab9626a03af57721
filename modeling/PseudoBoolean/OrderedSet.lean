import PseudoBoolean.Ordering

/-! # Finite sets as ascending lists

A set is its list of members in strictly ascending order, so two sets with the
same members are the same value and a set is listed in one order only.
-/

namespace PseudoBoolean

/-- A finite set, kept as the strictly ascending list of its members. -/
@[ext] structure OrderedSet (κ : Type) [Ord κ] where
  elems : List κ
  ascending : elems.Pairwise (fun x y => compare x y = .lt)
deriving DecidableEq

namespace OrderedSet

variable {κ : Type} [Ord κ]

/-- Puts `x` at its place in an ascending list that may hold it already. -/
def insertAscending (x : κ) : List κ → List κ
  | [] => [x]
  | y :: rest =>
    match compare x y with
    | .lt => x :: y :: rest
    | .eq => y :: rest
    | .gt => y :: insertAscending x rest

theorem eq_or_mem_of_mem_insertAscending {x z : κ} {l : List κ}
    (h : z ∈ insertAscending x l) : z = x ∨ z ∈ l := by
  induction l with
  | nil => exact .inl (by simpa [insertAscending] using h)
  | cons y rest ih =>
    simp only [insertAscending] at h
    split at h
    · simpa using h
    · exact .inr h
    · obtain rfl | h := List.mem_cons.mp h
      · exact .inr (by simp)
      · exact (ih h).imp_right (List.mem_cons_of_mem _)

theorem insertAscending_ascending [Std.TransOrd κ] (x : κ) {l : List κ}
    (h : l.Pairwise (fun a b => compare a b = .lt)) :
    (insertAscending x l).Pairwise (fun a b => compare a b = .lt) := by
  induction l with
  | nil => simp [insertAscending]
  | cons y rest ih =>
    obtain ⟨hy, hrest⟩ := List.pairwise_cons.mp h
    simp only [insertAscending]
    split
    · next hxy =>
      refine List.pairwise_cons.mpr ⟨fun z hz => ?_, h⟩
      obtain rfl | hz := List.mem_cons.mp hz
      · exact hxy
      · exact Std.TransCmp.lt_trans hxy (hy z hz)
    · exact h
    · next hxy =>
      refine List.pairwise_cons.mpr ⟨fun z hz => ?_, ih hrest⟩
      obtain rfl | hz := eq_or_mem_of_mem_insertAscending hz
      · exact Std.OrientedCmp.lt_of_gt hxy
      · exact hy z hz

instance : EmptyCollection (OrderedSet κ) := ⟨⟨[], .nil⟩⟩

instance : Inhabited (OrderedSet κ) := ⟨∅⟩

instance : Membership κ (OrderedSet κ) := ⟨fun s x => x ∈ s.elems⟩

instance [DecidableEq κ] (x : κ) (s : OrderedSet κ) : Decidable (x ∈ s) :=
  inferInstanceAs (Decidable (x ∈ s.elems))

def size (s : OrderedSet κ) : Nat := s.elems.length

def filter (p : κ → Bool) (s : OrderedSet κ) : OrderedSet κ :=
  ⟨s.elems.filter p, s.ascending.filter p⟩

section
variable [Std.TransOrd κ]

def insert (x : κ) (s : OrderedSet κ) : OrderedSet κ :=
  ⟨insertAscending x s.elems, insertAscending_ascending x s.ascending⟩

def ofList (l : List κ) : OrderedSet κ := l.foldl (fun s x => s.insert x) ∅

def union (s t : OrderedSet κ) : OrderedSet κ := t.elems.foldl (fun s x => s.insert x) s

instance : Union (OrderedSet κ) := ⟨union⟩

end

theorem mem_iff {s : OrderedSet κ} {x : κ} : x ∈ s ↔ x ∈ s.elems := Iff.rfl

@[simp] theorem not_mem_empty (x : κ) : ¬ x ∈ (∅ : OrderedSet κ) := List.not_mem_nil

@[simp] theorem mem_filter {p : κ → Bool} {s : OrderedSet κ} {x : κ} :
    x ∈ s.filter p ↔ x ∈ s ∧ p x = true := List.mem_filter

theorem mem_insertAscending [Std.LawfulEqOrd κ] {x z : κ} {l : List κ} :
    z ∈ insertAscending x l ↔ z = x ∨ z ∈ l := by
  refine ⟨eq_or_mem_of_mem_insertAscending, fun h => ?_⟩
  induction l with
  | nil => simpa [insertAscending] using h
  | cons y rest ih =>
    simp only [insertAscending]
    split
    · simpa using h
    · next hxy =>
      obtain rfl := Std.LawfulEqOrd.eq_of_compare hxy
      obtain rfl | h := h
      · simp
      · exact h
    · obtain h | h := h
      · exact List.mem_cons_of_mem _ (ih (.inl h))
      · obtain rfl | h := List.mem_cons.mp h
        · simp
        · exact List.mem_cons_of_mem _ (ih (.inr h))

theorem length_insertAscending_le (x : κ) (l : List κ) :
    (insertAscending x l).length ≤ l.length + 1 := by
  induction l with
  | nil => simp [insertAscending]
  | cons y rest ih =>
    simp only [insertAscending]
    split <;> simp_all

variable [Std.TransOrd κ]

theorem size_insert_le (x : κ) (s : OrderedSet κ) : (s.insert x).size ≤ s.size + 1 :=
  length_insertAscending_le x s.elems

@[simp] theorem mem_insert [Std.LawfulEqOrd κ] {x z : κ} {s : OrderedSet κ} :
    z ∈ s.insert x ↔ z = x ∨ z ∈ s := mem_insertAscending

theorem mem_foldl_insert [Std.LawfulEqOrd κ] {z : κ} {l : List κ} {s : OrderedSet κ} :
    z ∈ l.foldl (fun s x => s.insert x) s ↔ z ∈ s ∨ z ∈ l := by
  induction l generalizing s with
  | nil => simp
  | cons y rest ih =>
    rw [List.foldl_cons, ih, mem_insert, List.mem_cons, or_assoc, or_left_comm]

@[simp] theorem mem_ofList [Std.LawfulEqOrd κ] {z : κ} {l : List κ} : z ∈ ofList l ↔ z ∈ l := by
  simp [ofList, mem_foldl_insert]

@[simp] theorem mem_union [Std.LawfulEqOrd κ] {z : κ} {s t : OrderedSet κ} :
    z ∈ s ∪ t ↔ z ∈ s ∨ z ∈ t := mem_foldl_insert

theorem ext_mem {s t : OrderedSet κ} (h : ∀ x, x ∈ s ↔ x ∈ t) : s = t :=
  OrderedSet.ext (eq_of_ascending id s.ascending t.ascending h)

end OrderedSet

end PseudoBoolean
