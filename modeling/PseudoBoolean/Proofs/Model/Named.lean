import Mathlib
import PseudoBoolean.Proofs.Expr.Support
import PseudoBoolean.Proofs.Model.Audit
import PseudoBoolean.Proofs.Model.Bits

/-! # The verdict on named constraints

Wherever a requirement stands in an expression, its constraint in the model is the
polynomial of the required expression alone, and the last requirement with a label is the
one that counts. So a decoded solution tells the values of the required expressions as
they are written, and there is none where one of them is negative.
-/

namespace PseudoBoolean.Expr

variable {o : Options Rat} {e n payload : Expr Rat} {label : String} {feed : Feed Rat}
  {bits : Table String Rat}

theorem find?_expand (threshold : Nat) (e : Expr Rat) (label : String) :
    (e.expand threshold).2.find? label = (e.requirements.reverse.lookup label).map polynomial := by
  rw [expand_eq, namedPolynomials_eq, ← Table.mapValues_ofList, Table.find?_mapValues,
    Table.find?_ofList]

theorem find?_named (hlabel : ∀ t ∈ e.steps o, t.constraintLabel ≠ label) :
    (e.compile o).constraints.find? label = (e.expand o.threshold).2.find? label := by
  have hauxiliary : (auxiliaryConstraints o.strength (e.steps o)).find? label = none := by
    rw [auxiliaryConstraints, Table.find?_ofList, List.lookup_eq_none_iff]
    intro c hc
    obtain ⟨t, ht, rfl⟩ := List.mem_map.mp (List.mem_reverse.mp hc)
    exact bne_iff_ne.mpr (hlabel t ht).symm
  rw [compile_constraints, Table.find?_extend, hauxiliary, Option.none_or, expand_eq]

theorem mem_keys_named (hlabel : ∀ t ∈ e.steps o, t.constraintLabel ≠ label) :
    label ∈ (e.compile o).constraints.keys
      ↔ ∃ n ∈ e.nodes, ∃ payload, n.requirement? = some (label, payload) := by
  rw [Table.mem_keys_iff_isSome, find?_named hlabel, find?_expand, Option.isSome_map,
    ← Table.find?_ofList, ← Table.mem_keys_iff_isSome, Table.mem_keys_ofList,
    mem_labels_requirements]

/-- What the audit of a required expression finds. -/
theorem eval_of_energy (hsums : payload.SumsNonempty)
    (hfits : payload.polynomial.AllWeights Weight.FitsWord) {order : List String}
    (hbits : BitsOf order bits) {x : Rat}
    (hx : payload.polynomial.energy bits.find? feed = .ok x) :
    (∀ l ∈ payload.labels, l ∈ bits.keys) ∧ payload.eval (bitAt bits) feed = .ok x := by
  obtain ⟨z, hz⟩ := hbits.exists_assignment
  obtain ⟨hvalues, hcovered⟩ := Polynomial.exists_value_and_covered_of_energy hx
  have hlabels : ∀ l ∈ payload.polynomial.labels, l ∈ bits.keys :=
    fun l hl => Table.mem_keys_iff.mpr (hvalues l hl)
  have hkeys : ∀ l ∈ payload.labels, l ∈ bits.keys :=
    fun l hl => hlabels l ((mem_labels_polynomial hsums).mpr hl)
  rw [Polynomial.energy_of_bits (fun l hl => (hz l (hlabels l hl)).2) hcovered] at hx
  rw [eval_eq_wordValue hfits (fun l hl => (hz l (hkeys l hl)).1)
    (placeholders_covered hsums hcovered)]
  exact ⟨hkeys, hx⟩

theorem find?_restrict_polynomial (bits : Table String Rat) (hsums : payload.SumsNonempty)
    (l : String) : (Audit.restrict bits payload.polynomial).find? l
      = if l ∈ payload.labels then bits.find? l else none := by
  rw [Audit.find?_restrict]
  simp only [mem_labels_polynomial hsums]

theorem find?_broken_named {domain : Domain} {solution : Solution Rat} {d : DecodedSolution Rat}
    (hsums : payload.SumsNonempty) (hfits : payload.polynomial.AllWeights Weight.FitsWord)
    (hpayload : (e.compile o).constraints.find? label = some payload.polynomial)
    (hd : (e.compile o).decode domain solution feed = .ok d) :
    ∃ bits v, (e.compile o).bits domain solution = .ok bits ∧
      (∀ l ∈ payload.labels, l ∈ bits.keys) ∧ payload.eval (bitAt bits) feed = .ok v ∧
      ¬ v < -Audit.tolerance ∧ d.broken.find? label =
        if Audit.tolerance < v then some ⟨Audit.restrict bits payload.polynomial, v⟩ else none := by
  obtain ⟨bits, hbits, hbroken, -⟩ := Model.decode_eq_ok hd
  obtain ⟨v, hv, hnegative, hfind⟩ := Model.find?_broken hbroken hpayload
  obtain ⟨hkeys, heval⟩ := eval_of_energy hsums hfits (Solution.bitsOf hbits) hv
  exact ⟨bits, v, hbits, hkeys, heval, hnegative, hfind⟩

/-- For labels other than those of the steps, the constraints of a model are the
requirements of the expression, the last one of each label. A decoded solution lists such
a constraint as broken exactly if the required expression has a value above the tolerance
at its bits, with this value and the bits of its variables. A value below the negative
tolerance leaves the solution undecoded. -/
theorem decode_named (o : Options Rat) (e : Expr Rat) (feed : Feed Rat) (label : String)
    (hsums : e.SumsNonempty)
    (hfits : (e.expand o.threshold).2.AllValues fun p => p.AllWeights Weight.FitsWord)
    (hlabel : ∀ t ∈ (e.compilation o).steps, t.constraintLabel ≠ label) :
    let m := e.compile o
    (label ∈ m.constraints.keys
      ↔ ∃ n ∈ e.nodes, ∃ payload, n.requirement? = some (label, payload)) ∧
    ∀ before n after payload, e.nodes = before ++ n :: after →
      n.requirement? = some (label, payload) →
      (∀ k ∈ after, ∀ q, k.requirement? ≠ some (label, q)) →
      m.constraints.find? label = some (payload.expand o.threshold).1 ∧
      ∀ domain solution,
        (∀ d, m.decode domain solution feed = .ok d →
          ∃ bits v, m.bits domain solution = .ok bits ∧ payload.eval (bitAt bits) feed = .ok v ∧
            (label ∈ d.broken.keys ↔ Audit.tolerance < v) ∧
            ∀ c, d.broken.find? label = some c → c.penalty = v ∧
              (∀ l, l ∈ c.bits.keys ↔ l ∈ payload.labels) ∧
              ∀ l ∈ payload.labels, c.bits.find? l = bits.find? l) ∧
        ∀ bits v, m.bits domain solution = .ok bits → payload.eval (bitAt bits) feed = .ok v →
          v < -Audit.tolerance → ∀ d, m.decode domain solution feed ≠ .ok d := by
  intro m
  rw [compilation_steps] at hlabel
  refine ⟨mem_keys_named hlabel, ?_⟩
  intro before n after payload hnodes hn hafter
  have hexpand : (e.expand o.threshold).2.find? label = some payload.polynomial := by
    rw [find?_expand, lookup_requirements hnodes hn hafter, Option.map_some]
  have hpayload : m.constraints.find? label = some payload.polynomial :=
    (find?_named hlabel).trans hexpand
  have hfitsPayload := Table.allValues_iff.mp hfits label payload.polynomial hexpand
  have hmem : n ∈ e.nodes := by
    rw [hnodes]
    exact List.mem_append_right _ List.mem_cons_self
  have hsumsPayload : payload.SumsNonempty :=
    hsums.subset fun k hk => mem_nodes_trans hmem (nodes_subset_of_requirement? hn hk)
  refine ⟨?_, fun domain solution => ⟨fun d hd => ?_, ?_⟩⟩
  · rw [expand_fst]
    exact hpayload
  · obtain ⟨bits, v, hbits, hkeys, heval, -, hfind⟩ :=
      find?_broken_named hsumsPayload hfitsPayload hpayload hd
    refine ⟨bits, v, hbits, heval, ?_, ?_⟩
    · rw [Table.mem_keys_iff_isSome, hfind]
      split <;> simp [*]
    · intro c hc
      rw [hfind] at hc
      split at hc
      · cases hc
        have hfound := find?_restrict_polynomial bits hsumsPayload
        refine ⟨rfl, fun l => ?_, fun l hl => (hfound l).trans (if_pos hl)⟩
        rw [Table.mem_keys_iff_isSome, hfound]
        split
        · next hl => simp [hl, Table.mem_keys_iff_isSome.mp (hkeys l hl)]
        · next hl => simp [hl]
      · cases hc
  · intro bits v hbits heval hnegative d hd
    obtain ⟨found, x, hfound, -, hx, hnot, -⟩ :=
      find?_broken_named hsumsPayload hfitsPayload hpayload hd
    cases hbits.symm.trans hfound
    cases heval.symm.trans hx
    exact hnot hnegative

/-- Two requirements with one label, the first of them in the body of the second. -/
def nestedLimits : Expr Rat :=
  .penalized "limit" (.constraint "limit" (.var .binary (.ofLabel 0 "a")))
    (.product (.num 2) (.var .spin (.ofLabel 1 "b")))

def limitModel : Model Rat where
  form := Qubo.ofPolynomial nestedLimits.polynomial
  layout := nestedLimits.layout
  constraints := Table.ofList nestedLimits.namedPolynomials

theorem compile_nestedLimits :
    nestedLimits.steps .standard = [] ∧ nestedLimits.compile .standard = limitModel :=
  compile_of_quadratic (by cbv)

theorem decode_nestedLimits :
    let high : Table String Rat := Table.ofList [("a", 1), ("b", 1)]
    let low : Table String Rat := Table.ofList [("a", 1), ("b", 0)]
    (∃ d, (nestedLimits.compile .standard).decode .binary (.labels high) ∅ = .ok d ∧
      "limit" ∈ d.broken.keys ∧
      ∀ c, d.broken.find? "limit" = some c → c.penalty = 2 ∧ ¬ "a" ∈ c.bits.keys) ∧
    ∀ d, (nestedLimits.compile .standard).decode .binary (.labels low) ∅ ≠ .ok d := by
  have hok : (limitModel.decode .binary (.labels (Table.ofList [("a", 1), ("b", 1)]))
      ∅).toOption.isSome = true := by decide +kernel
  have hhigh : eval (bitAt (Table.ofList [("a", 1), ("b", 1)])) ∅
      (.product (.num (2 : Rat)) (.var .spin (.ofLabel 1 "b"))) = .ok 2 := by decide +kernel
  have hlow : eval (bitAt (Table.ofList [("a", 1), ("b", 0)])) ∅
      (.product (.num (2 : Rat)) (.var .spin (.ofLabel 1 "b"))) = .ok (-2) := by decide +kernel
  intro high low
  obtain ⟨hsteps, hm⟩ := compile_nestedLimits
  obtain ⟨-, hlast⟩ := decode_named .standard nestedLimits ∅ "limit" (by decide)
    (by decide +kernel) (by rw [compilation_steps, hsteps]; exact fun t ht => nomatch ht)
  obtain ⟨-, hverdict⟩ := hlast nestedLimits.nodes.dropLast nestedLimits []
    (.product (.num 2) (.var .spin (.ofLabel 1 "b"))) rfl rfl (fun k hk => nomatch hk)
  rw [hm] at hverdict ⊢
  constructor
  · obtain ⟨d, hd⟩ := exists_eq_ok hok
    obtain ⟨bits, v, hbits, heval, hbroken, hentry⟩ := (hverdict .binary (.labels high)).1 d hd
    cases hbits.symm.trans (show _ = .ok high by rfl)
    cases heval.symm.trans hhigh
    refine ⟨d, hd, hbroken.mpr (by norm_num [Audit.tolerance]), fun c hc => ?_⟩
    obtain ⟨hpenalty, hkeys, -⟩ := hentry c hc
    exact ⟨hpenalty, fun ha => absurd ((hkeys "a").mp ha) (by decide)⟩
  · exact (hverdict .binary (.labels low)).2 low (-2) (by rfl) hlow (by norm_num [Audit.tolerance])

end PseudoBoolean.Expr
