import PseudoBoolean.Gadget
import PseudoBoolean.Proofs.Expr.Arithmetic
import PseudoBoolean.Proofs.Expr.Nodes

/-! # The normal form of built expressions

Whatever the operators make of leaves has flat sums of at least two terms, none of them
zero, and no product of two numbers. An addition keeps the terms of both operands, each as
often as it stands there, unless it computes with two numbers. No law of arithmetic is
used, so all this holds of rounded numbers too.
-/

namespace PseudoBoolean.Expr

variable {α : Type} [Scalar α]

/-- The expressions that the operators, the wrappers and the gadgets make of leaves. -/
inductive Built : Expr α → Prop where
  | num (x : α) : Built (num x)
  | var (d : Domain) (v : Variable) : Built (var d v)
  | placeholder (label : String) : Built (placeholder label)
  | add {a b : Expr α} : Built a → Built b → Built (a + b)
  | sub {a b : Expr α} : Built a → Built b → Built (a - b)
  | mul {a b : Expr α} : Built a → Built b → Built (a * b)
  | neg {a : Expr α} : Built a → Built (-a)
  | divNumber {a : Expr α} (x : α) : Built a → Built (a.divNumber x)
  | pow {a : Expr α} (n : Nat) : Built a → Built (a ^ n)
  | total {l : List (Expr α)} : (∀ e ∈ l, Built e) → Built (total l)
  | assign (op : Assignment) {a b : Expr α} : Built a → Built b → Built ((assign op b).run a).2
  | constraint (label : String) {a : Expr α} : Built a → Built (constraint label a)
  | named (name : String) {a : Expr α} : Built a → Built (named name a)
  | penalized (label : String) {a b : Expr α} : Built a → Built b → Built (penalized label a b)
  | not {a : Expr α} : Built a → Built (Gadget.not a)
  | and {a b : Expr α} : Built a → Built b → Built (Gadget.and a b)
  | or {a b : Expr α} : Built a → Built b → Built (Gadget.or a b)
  | xor {a b : Expr α} : Built a → Built b → Built (Gadget.xor a b)
  | requireNot (label : String) {a b : Expr α} :
      Built a → Built b → Built (Gadget.requireNot label a b)
  | requireAnd (label : String) {a b c : Expr α} :
      Built a → Built b → Built c → Built (Gadget.requireAnd label a b c)
  | requireOr (label : String) {a b c : Expr α} :
      Built a → Built b → Built c → Built (Gadget.requireOr label a b c)
  | requireXor (label : String) (id : Nat) {a b c : Expr α} :
      Built a → Built b → Built c → Built ((Gadget.requireXor label a b c).run id).1

/-- What no operator lets a node become: a sum of fewer than two terms, or with a sum or a
zero among them, and a product of two numbers. -/
def Tidy : Expr α → Prop
  | sum terms => 2 ≤ terms.length ∧ ∀ e ∈ terms, (∀ v, e ≠ sum v) ∧ e.isZero = false
  | product (num _) (num _) => False
  | _ => True

def Normal (e : Expr α) : Prop := ∀ n ∈ e.nodes, n.Tidy

/-- The terms that an expression contributes to a sum. A zero contributes none. -/
def topTerms : Expr α → List (Expr α)
  | sum terms => terms
  | e => if e.isZero then [] else [e]

variable {a b c e : Expr α}

/-! ## Terms of sums -/

theorem topTerms_of_ne_sum (h : ∀ v, e ≠ sum v) :
    e.topTerms = if e.isZero then [] else [e] := by
  unfold topTerms
  split
  · exact absurd rfl (h _)
  · rfl

theorem topTerms_of_isZero (h : e.isZero = true) : e.topTerms = [] := by
  rw [topTerms_of_ne_sum, if_pos h]
  rintro v rfl
  cases h

theorem topTerms_of_not_isZero (hsum : ∀ v, e ≠ sum v) (h : e.isZero = false) :
    e.topTerms = [e] := by
  rw [topTerms_of_ne_sum hsum, h, if_neg Bool.false_ne_true]

/-- Joining keeps all terms, though not their order. -/
theorem exists_join (ha : a.isZero = false) (hb : b.isZero = false) :
    ∃ terms, join a b = sum terms ∧ terms.Perm (a.topTerms ++ b.topTerms) := by
  obtain ⟨v, w, rfl, rfl, h⟩ | ⟨v, rfl, hsum, h⟩ | ⟨w, rfl, hsum, h⟩ | ⟨hsum, hsum', h⟩ :=
    join_cases a b
  · exact ⟨_, h, .refl _⟩
  · rw [topTerms_of_not_isZero hsum hb]
    exact ⟨_, h, .refl _⟩
  · rw [topTerms_of_not_isZero hsum ha]
    exact ⟨_, h, List.perm_append_comm⟩
  · rw [topTerms_of_not_isZero hsum ha, topTerms_of_not_isZero hsum' hb]
    exact ⟨_, h, .refl _⟩

theorem perm_topTerms_add (h : ∀ x y, ¬ (a = num x ∧ b = num y)) :
    (a + b).topTerms.Perm (a.topTerms ++ b.topTerms) := by
  obtain ⟨x, y, hx, hy, -⟩ | ⟨ha, hadd⟩ | ⟨hb, hadd⟩ | ⟨ha, hb, hadd⟩ := add_cases a b
  · exact absurd ⟨hx, hy⟩ (h x y)
  · rw [hadd, topTerms_of_isZero ha, List.nil_append]
  · rw [hadd, topTerms_of_isZero hb, List.append_nil]
  · obtain ⟨terms, hjoin, hperm⟩ := exists_join ha hb
    rw [hadd, hjoin]
    exact hperm

/-! ## Parts of normal expressions -/

theorem normal_product_iff :
    (product a b).Normal ↔ a.Normal ∧ b.Normal ∧ ∀ x y, ¬ (a = num x ∧ b = num y) := by
  have htidy : (product a b).Tidy ↔ ∀ x y, ¬ (a = num x ∧ b = num y) := by
    unfold Tidy
    split
    · next h => cases h
    · next x y h =>
      cases h
      exact ⟨False.elim, fun h => h x y ⟨rfl, rfl⟩⟩
    · next h => exact ⟨fun _ x y hxy => h x y (by rw [hxy.1, hxy.2]), fun _ => trivial⟩
  simp only [Normal, nodes, List.forall_mem_append, List.forall_mem_singleton, htidy, and_assoc]

theorem normal_sum_iff {terms : List (Expr α)} :
    (sum terms).Normal ↔ (∀ e ∈ terms, e.Normal) ∧ 2 ≤ terms.length ∧
      ∀ e ∈ terms, (∀ v, e ≠ sum v) ∧ e.isZero = false := by
  have hterms : (∀ n ∈ termNodes terms, n.Tidy) ↔ ∀ e ∈ terms, e.Normal := by
    simp only [mem_termNodes]
    exact ⟨fun h e he n hn => h n ⟨e, he, hn⟩, fun h n ⟨e, he, hn⟩ => h e he n hn⟩
  rw [Normal, nodes, List.forall_mem_append, List.forall_mem_singleton, hterms]
  rfl

theorem normal_num (x : α) : (num x).Normal := List.forall_mem_singleton.mpr trivial

theorem Normal.constraint (h : a.Normal) (label : String) : (constraint label a).Normal :=
  List.forall_mem_append.mpr ⟨h, List.forall_mem_singleton.mpr trivial⟩

theorem Normal.named (h : a.Normal) (name : String) : (named name a).Normal :=
  List.forall_mem_append.mpr ⟨h, List.forall_mem_singleton.mpr trivial⟩

theorem Normal.penalized (ha : a.Normal) (hb : b.Normal) (label : String) :
    (penalized label a b).Normal :=
  List.forall_mem_append.mpr
    ⟨List.forall_mem_append.mpr ⟨ha, hb⟩, List.forall_mem_singleton.mpr trivial⟩

/-- The terms that a normal expression contributes to a sum are fit for it. -/
theorem Normal.topTerms (h : a.Normal) (ha : a.isZero = false) : 1 ≤ a.topTerms.length ∧
    ∀ e ∈ a.topTerms, e.Normal ∧ (∀ v, e ≠ sum v) ∧ e.isZero = false := by
  by_cases hsum : ∃ v, a = sum v
  · obtain ⟨terms, rfl⟩ := hsum
    obtain ⟨hnormal, hlength, hterms⟩ := normal_sum_iff.mp h
    exact ⟨Nat.le_of_succ_le hlength, fun e he => ⟨hnormal e he, hterms e he⟩⟩
  · rw [not_exists] at hsum
    rw [topTerms_of_not_isZero hsum ha]
    exact ⟨Nat.le_refl 1, List.forall_mem_singleton.mpr ⟨h, hsum, ha⟩⟩

/-! ## The operators -/

theorem Normal.join (ha : a.Normal) (hb : b.Normal) (hazero : a.isZero = false)
    (hbzero : b.isZero = false) : (join a b).Normal := by
  obtain ⟨terms, hjoin, hperm⟩ := exists_join hazero hbzero
  obtain ⟨halength, haterms⟩ := ha.topTerms hazero
  obtain ⟨hblength, hbterms⟩ := hb.topTerms hbzero
  have hterms : ∀ e ∈ terms, e.Normal ∧ (∀ v, e ≠ sum v) ∧ e.isZero = false := fun e he =>
    (List.mem_append.mp (hperm.mem_iff.mp he)).elim (haterms e) (hbterms e)
  have hlength := hperm.length_eq
  rw [List.length_append] at hlength
  rw [hjoin, normal_sum_iff]
  exact ⟨fun e he => (hterms e he).1, by omega, fun e he => (hterms e he).2⟩

theorem Normal.add (ha : a.Normal) (hb : b.Normal) : (a + b).Normal := by
  obtain ⟨x, y, -, -, h⟩ | ⟨-, h⟩ | ⟨-, h⟩ | ⟨hazero, hbzero, h⟩ := add_cases a b
  · rw [h]
    exact normal_num _
  · rw [h]
    exact hb
  · rw [h]
    exact ha
  · rw [h]
    exact ha.join hb hazero hbzero

theorem Normal.mul (ha : a.Normal) (hb : b.Normal) : (a * b).Normal := by
  obtain ⟨x, y, -, -, h⟩ | ⟨hnumbers, h⟩ := mul_cases a b
  · rw [h]
    exact normal_num _
  · rw [h]
    exact normal_product_iff.mpr ⟨ha, hb, hnumbers⟩

theorem Normal.sub (ha : a.Normal) (hb : b.Normal) : (a - b).Normal :=
  ha.add ((normal_num _).mul hb)

theorem Normal.mulNum (ha : a.Normal) (x : α) : (a * num x).Normal := ha.mul (normal_num x)

theorem Normal.pow (ha : a.Normal) : ∀ n : Nat, (a ^ n).Normal
  | 0 => normal_num _
  | 1 => ha
  | n + 2 => (Normal.pow ha (n + 1)).mul ha

theorem Normal.foldl_add {l : List (Expr α)} (ha : a.Normal) (hl : ∀ e ∈ l, e.Normal) :
    (l.foldl (· + ·) a).Normal := by
  induction l generalizing a with
  | nil => exact ha
  | cons e rest ih =>
    obtain ⟨he, hrest⟩ := List.forall_mem_cons.mp hl
    exact ih (ha.add he) hrest

theorem Normal.assign (op : Assignment) (ha : a.Normal) (hb : b.Normal) :
    ((assign op b).run a).2.Normal := by
  cases op with
  | add => exact ha.add hb
  | sub => exact ha.sub hb
  | mul => exact ha.mul hb

theorem Normal.not (ha : a.Normal) : (Gadget.not a).Normal := ((normal_num _).sub ha).named _

theorem Normal.and (ha : a.Normal) (hb : b.Normal) : (Gadget.and a b).Normal := (ha.mul hb).named _

theorem Normal.requireXorWith (label : String) (aux : Variable) (ha : a.Normal) (hb : b.Normal)
    (hc : c.Normal) : (Gadget.requireXorWith label aux a b c).Normal := by
  have hx : (var .binary aux : Expr α).Normal := List.forall_mem_singleton.mpr trivial
  have hs := ha.add hb
  refine Normal.constraint (.add (.add (.add (.add ?_ ?_) hs) hc) (hx.mulNum _)) label
  · exact .sub (.sub ((ha.mul hb).mulNum _) ((hs.mul hc).mulNum _)) ((hs.mul hx).mulNum _)
  · exact (hx.mul hc).mulNum _

theorem Built.normal (h : Built e) : e.Normal := by
  induction h with
  | num x => exact normal_num x
  | var d v => exact List.forall_mem_singleton.mpr trivial
  | placeholder label => exact List.forall_mem_singleton.mpr trivial
  | add _ _ ha hb => exact ha.add hb
  | sub _ _ ha hb => exact ha.sub hb
  | mul _ _ ha hb => exact ha.mul hb
  | neg _ ha => exact ha.mulNum _
  | divNumber x _ ha => exact ha.mulNum _
  | pow n _ ha => exact ha.pow n
  | total _ hl => exact (normal_num _).foldl_add hl
  | assign op _ _ ha hb => exact ha.assign op hb
  | constraint label _ ha => exact ha.constraint label
  | named name _ ha => exact ha.named name
  | penalized label _ _ ha hb => exact ha.penalized hb label
  | not _ ha => exact ha.not
  | and _ _ ha hb => exact ha.and hb
  | or _ _ ha hb => exact ((ha.not.and hb.not).not).named _
  | xor _ _ ha hb => exact ((ha.add hb).sub ((ha.mul hb).mulNum _)).named _
  | requireNot label _ _ ha hb =>
    exact (((((ha.mul hb).mulNum _).sub ha).sub hb).add (normal_num _)).constraint label
  | requireAnd label _ _ _ ha hb hc =>
    exact (((ha.mul hb).sub (((ha.add hb).mul hc).mulNum _)).add (hc.mulNum _)).constraint label
  | requireOr label _ _ _ ha hb hc =>
    refine Normal.constraint (.add (.add (ha.mul hb) ?_) hc) label
    exact (ha.add hb).mul ((normal_num _).sub (hc.mulNum _))
  | requireXor label id _ _ _ ha hb hc => exact ha.requireXorWith label _ hb hc

/-- Built expressions are in normal form, and adding two of them neither loses nor repeats
a term. -/
theorem normal_built :
    (∀ e : Expr α, Built e →
      (∀ terms, sum terms ∈ e.nodes → 2 ≤ terms.length ∧ (∀ v, ¬ sum v ∈ terms) ∧
        ∀ x, (x == 0) = true → ¬ num x ∈ terms) ∧
      ∀ x y, ¬ product (num x) (num y) ∈ e.nodes) ∧
    ∀ a b : Expr α, Built a → Built b → (∀ x y, ¬ (a = num x ∧ b = num y)) →
      (a + b).topTerms.Perm (a.topTerms ++ b.topTerms) := by
  refine ⟨fun e he => ⟨fun terms hterms => ?_, fun x y => he.normal _⟩,
    fun a b _ _ => perm_topTerms_add⟩
  obtain ⟨hlength, hfit⟩ := he.normal _ hterms
  refine ⟨hlength, fun v hv => (hfit _ hv).1 v rfl, fun x hx hmem => ?_⟩
  have hzero : (x == 0) = false := (hfit _ hmem).2
  rw [hx] at hzero
  cases hzero

/-- Sums and a gadget that are multiplied and added up. -/
theorem normal_weightedParity :
    let s : Expr Rat := .var .spin (.ofLabel 0 "s")
    let a := 2 - s
    let b := s + ((Gadget.requireXor "parity" s 1 a).run 1).1 + 3
    Built (a * b ^ 2) ∧ (∀ terms, sum terms ∈ (a * b ^ 2).nodes → 2 ≤ terms.length) ∧
      (∀ x y, ¬ product (num x) (num y) ∈ (a * b ^ 2).nodes) ∧
      (a + b).topTerms.length = 5 ∧ (a + b).topTerms.Perm (a.topTerms ++ b.topTerms) := by
  intro s a b
  have hs : Built s := .var _ _
  have ha : Built a := .sub (.num _) hs
  have hb : Built b := .add (.add hs (.requireXor _ _ hs (.num _) ha)) (.num _)
  have he : Built (a * b ^ 2) := .mul ha (.pow 2 hb)
  obtain ⟨hsums, hproducts⟩ := normal_built.1 _ he
  exact ⟨he, fun terms hterms => (hsums terms hterms).1, hproducts, rfl,
    normal_built.2 a b ha hb nofun⟩

end PseudoBoolean.Expr
