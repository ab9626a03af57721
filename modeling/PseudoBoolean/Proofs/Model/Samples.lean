import Mathlib
import PseudoBoolean.Expr.Expansion
import PseudoBoolean.Model.Decoding
import PseudoBoolean.Proofs.Fold
import PseudoBoolean.Proofs.Scalar.Rank

/-! # The best samples

With their places in the input, samples are strictly ordered: by energy, and by place where
the energies are equal. There is one list of them in this order, and ranking samples gives
this list without the places. Decoding the best samples decodes its first ones in turn, so
samples behind them may as well be left out, and fewer samples give a part of the result
for more of them.
-/

namespace PseudoBoolean.Model

variable {α : Type}

/-- Whether a sample has a lower energy than another, or the same in an earlier place. -/
def Precedes (s t : Sample α × Nat) : Prop :=
  Binary64.rank s.1.energy t.1.energy = .lt ∨ Binary64.rank s.1.energy t.1.energy = .eq ∧ s.2 < t.2

instance (s t : Sample α × Nat) : Decidable (Precedes s t) :=
  inferInstanceAs (Decidable (_ ∨ _))

/-- Whether a list has the samples of another one, each before all that it precedes. -/
structure IsRanking (placed ranked : List (Sample α × Nat)) : Prop where
  perm : ranked.Perm placed
  ascending : ranked.Pairwise Precedes

variable {samples : List (Sample α)} {placed ranked : List (Sample α × Nat)}
  {s t : Sample α × Nat}

theorem IsRanking.filter (h : IsRanking placed ranked) (keep : Sample α × Nat → Bool) :
    IsRanking (placed.filter keep) (ranked.filter keep) :=
  ⟨h.perm.filter keep, h.ascending.filter keep⟩

theorem rankSamples_perm (samples : List (Sample α)) : (rankSamples samples).Perm samples :=
  List.mergeSort_perm samples _

theorem rank_swap (x y : UInt64) : Binary64.rank y x = (Binary64.rank x y).swap :=
  Std.OrientedCmp.eq_swap

theorem Precedes.asymm (h : Precedes s t) : ¬ Precedes t s := by
  rintro (h' | ⟨h', hplace'⟩) <;> obtain h | ⟨h, hplace⟩ := h <;>
    rw [rank_swap, h] at h'
  · cases h'
  · cases h'
  · cases h'
  · exact Nat.lt_asymm hplace hplace'

theorem IsRanking.unique {ranked' : List (Sample α × Nat)} (h : IsRanking placed ranked)
    (h' : IsRanking placed ranked') : ranked = ranked' :=
  List.Perm.eq_of_pairwise (fun _ _ _ _ hst hts => absurd hts hst.asymm) h.ascending h'.ascending
    (h.perm.trans h'.perm.symm)

/-! ## Ranking -/

theorem rank_isLE_trans (r s t : Sample α) (h : (Binary64.rank r.energy s.energy).isLE)
    (h' : (Binary64.rank s.energy t.energy).isLE) : (Binary64.rank r.energy t.energy).isLE :=
  Std.TransCmp.isLE_trans h h'

theorem rank_isLE_total (s t : Sample α) :
    (Binary64.rank s.energy t.energy).isLE || (Binary64.rank t.energy s.energy).isLE := by
  rw [rank_swap s.energy t.energy]
  cases Binary64.rank s.energy t.energy <;> rfl

theorem rankSamples_pairwise (samples : List (Sample α)) :
    (rankSamples samples).Pairwise fun s t => (Binary64.rank s.energy t.energy).isLE :=
  List.pairwise_mergeSort rank_isLE_trans rank_isLE_total samples

/-- Samples whose places ascend are ranked in the order that their places decide. -/
theorem exists_isRanking (hplaces : placed.Pairwise fun s t => s.2 < t.2) :
    ∃ ranked, IsRanking placed ranked ∧
      rankSamples (placed.map Prod.fst) = ranked.map Prod.fst := by
  let le : Sample α × Nat → Sample α × Nat → Bool :=
    fun s t => (Binary64.rank s.1.energy t.1.energy).isLE
  refine ⟨placed.mergeSort le, ⟨List.mergeSort_perm placed le, ?_⟩, ?_⟩
  · -- A stable sort orders elements with their positions, which ascend with the places.
    rw [← List.mergeSort_zipIdx, List.pairwise_map]
    have hsorted := List.pairwise_mergeSort
      (List.zipIdxLE_trans fun r s t : Sample α × Nat => rank_isLE_trans r.1 s.1 t.1)
      (List.zipIdxLE_total fun s t => rank_isLE_total s.1 t.1) placed.zipIdx
    have hperm := List.mergeSort_perm placed.zipIdx (List.zipIdxLE le)
    have hdistinct := List.pairwise_map.mp
      ((hperm.map Prod.snd).nodup_iff.mpr (List.nodup_zipIdx_map_snd placed))
    refine (hsorted.and hdistinct).imp_of_mem fun {s t} hs ht ⟨hst, hne⟩ => ?_
    have hplace : s.2 < t.2 → s.1.2 < t.1.2 := by
      obtain ⟨hslt, hs⟩ := List.mem_zipIdx' (hperm.mem_iff.mp hs)
      obtain ⟨htlt, ht⟩ := List.mem_zipIdx' (hperm.mem_iff.mp ht)
      rw [hs, ht]
      exact List.pairwise_iff_getElem.mp hplaces s.2 t.2 hslt htlt
    simp only [List.zipIdxLE, rank_swap s.1.1.energy t.1.1.energy] at hst
    cases hrank : Binary64.rank s.1.1.energy t.1.1.energy with
    | lt => exact .inl hrank
    | eq =>
      rw [hrank] at hst
      exact .inr ⟨hrank, hplace (lt_of_le_of_ne (of_decide_eq_true hst) hne)⟩
    | gt =>
      rw [hrank] at hst
      cases hst
  · refine Eq.symm (List.map_mergeSort ?_)
    exact fun _ _ _ _ => rfl

theorem IsRanking.rankSamples_eq (hplaces : placed.Pairwise fun s t => s.2 < t.2)
    (h : IsRanking placed ranked) :
    rankSamples (placed.map Prod.fst) = ranked.map Prod.fst := by
  obtain ⟨ranked', h', heq⟩ := exists_isRanking hplaces
  rw [heq, h'.unique h]

theorem zipIdx_places {β : Type} (l : List β) :
    l.zipIdx.Pairwise fun s t => s.2 < t.2 := by
  rw [← List.pairwise_map, List.zipIdx_map_snd]
  exact List.pairwise_lt_range'

/-- Samples with different energies are ranked alike in whatever order they come. -/
theorem rankSamples_of_perm {samples' : List (Sample α)} (h : samples'.Perm samples)
    (hdistinct : samples.Pairwise fun s t => Binary64.rank s.energy t.energy ≠ .eq) :
    rankSamples samples' = rankSamples samples := by
  have hperm := (rankSamples_perm samples').trans h
  refine List.Perm.eq_of_pairwise (fun s t hs ht hst hts => ?_) (rankSamples_pairwise samples')
    (rankSamples_pairwise samples) (hperm.trans (rankSamples_perm samples).symm)
  have hsymm : Std.Symm fun s t : Sample α => Binary64.rank s.energy t.energy ≠ .eq :=
    ⟨fun s t hne heq => hne (Std.OrientedCmp.eq_symm heq)⟩
  by_contra hne
  have heq : Binary64.rank s.energy t.energy = .eq := Std.OrientedCmp.isLE_antisymm hst hts
  exact hdistinct.forall (hperm.mem_iff.mp hs) ((rankSamples_perm samples).mem_iff.mp ht) hne heq

/-! ## Decoding -/

variable [Scalar α] (m : Model α) (domain : Domain) (feed : Feed α)

theorem decodeSamples_eq (h : IsRanking samples.zipIdx ranked) (k : Nat) :
    m.decodeSamples domain (some k) samples feed =
      (ranked.take k).mapM fun s => m.decode domain s.1.solution feed := by
  have hranked := h.rankSamples_eq (zipIdx_places samples)
  rw [List.zipIdx_map_fst] at hranked
  rw [decodeSamples, bestSamples, hranked, Option.getD_some, ← List.map_take, List.mapM_map]
  rfl

/-- The first elements of a list are those of the elements that are kept, if these are
among them. -/
theorem take_filter {β : Type} {l : List β} {keep : β → Bool} {k : Nat}
    (h : ∀ e ∈ l.take k, keep e = true) : (l.filter keep).take k = l.take k := by
  have hsplit : l.filter keep = l.take k ++ (l.drop k).filter keep := by
    rw [← List.filter_eq_self.mpr h, ← List.filter_append, List.take_append_drop]
  obtain hk | hk := Nat.le_total k l.length
  · rw [hsplit, List.take_left' (List.length_take_of_le hk)]
  · rw [hsplit, List.drop_eq_nil_of_le hk, List.filter_nil, List.append_nil, List.take_take,
      Nat.min_self]

/-- Samples behind the best ones may be left out. -/
theorem decodeSamples_filter (h : IsRanking samples.zipIdx ranked) {k : Nat} {keep : Nat → Bool}
    (hkeep : ∀ s ∈ ranked.take k, keep s.2 = true) :
    m.decodeSamples domain (some k)
        ((samples.zipIdx.filter fun s => keep s.2).map Prod.fst) feed =
      m.decodeSamples domain (some k) samples feed := by
  have hranked := (h.filter fun s => keep s.2).rankSamples_eq
    ((zipIdx_places samples).filter fun s => keep s.2)
  rw [m.decodeSamples_eq domain feed h, decodeSamples, bestSamples, hranked, Option.getD_some,
    ← List.map_take, List.mapM_map, take_filter hkeep]
  rfl

theorem decodeSamples_take (h : IsRanking samples.zipIdx ranked) {k k' : Nat} (hk : k ≤ k')
    {ds : List (DecodedSolution α)} (hds : m.decodeSamples domain (some k') samples feed = .ok ds) :
    m.decodeSamples domain (some k) samples feed = .ok (ds.take k) := by
  rw [m.decodeSamples_eq domain feed h] at hds ⊢
  have htake := List.forall₂_take k (mapM_eq_ok_iff.mp hds)
  rw [List.take_take, Nat.min_eq_left hk] at htake
  exact mapM_eq_ok_iff.mpr htake

theorem decodeSamples_of_perm {samples' : List (Sample α)} (h : samples'.Perm samples)
    (hdistinct : samples.Pairwise fun s t => Binary64.rank s.energy t.energy ≠ .eq)
    (k? : Option Nat) :
    m.decodeSamples domain k? samples' feed = m.decodeSamples domain k? samples feed := by
  rw [decodeSamples, decodeSamples, bestSamples, bestSamples, rankSamples_of_perm h hdistinct,
    h.length_eq]

/-- Decoding the `k` best samples decodes the first `k` in order of energy and place, up to
the first failure. The order of energies refines that of values and tells all bits apart.
Negative bits are before positive ones, `-0` so before `0`, and what is not a number is
outside all numbers: first if its sign bit is set, and last otherwise. -/
theorem decodeSamples_ranked (samples : List (Sample α)) :
    (∀ x y : UInt64, (Binary64.rank x y = .eq ↔ x = y) ∧
      (Float.ofBits x < Float.ofBits y → Binary64.rank x y = .lt) ∧
      (2 ^ 63 ≤ x.toNat → y.toNat < 2 ^ 63 → Binary64.rank x y = .lt) ∧
      (x.toNat < 2 ^ 63 → y.toNat < 2 ^ 63 → (Binary64.rank x y = .lt ↔ x < y)) ∧
      (2 ^ 63 ≤ x.toNat → 2 ^ 63 ≤ y.toNat → (Binary64.rank x y = .lt ↔ y < x)) ∧
      ((Float.ofBits x).isNaN = true → (Float.ofBits y).isNaN = false →
        (x.toNat < 2 ^ 63 → Binary64.rank y x = .lt) ∧
          (2 ^ 63 ≤ x.toNat → Binary64.rank x y = .lt))) ∧
    Binary64.rank (-0.0 : Float).toBits (0.0 : Float).toBits = .lt ∧
    ∃ ranked, IsRanking samples.zipIdx ranked ∧
      (∀ k, (∃ ds, m.decodeSamples domain (some k) samples feed = .ok ds) ↔
        ∀ s ∈ ranked.take k, ∃ d, m.decode domain s.1.solution feed = .ok d) ∧
      (∀ k ds, m.decodeSamples domain (some k) samples feed = .ok ds ↔
        List.Forall₂ (fun s d => m.decode domain s.1.solution feed = .ok d) (ranked.take k) ds) ∧
      (∀ k err, m.decodeSamples domain (some k) samples feed = .error err ↔
        ∃ before s after, ranked.take k = before ++ s :: after ∧
          (∀ r ∈ before, ∃ d, m.decode domain r.1.solution feed = .ok d) ∧
          m.decode domain s.1.solution feed = .error err) ∧
      m.decodeSamples domain none samples feed =
        m.decodeSamples domain (some samples.length) samples feed ∧
      (∀ k (keep : Nat → Bool), (∀ s ∈ ranked.take k, keep s.2 = true) →
        m.decodeSamples domain (some k)
            ((samples.zipIdx.filter fun s => keep s.2).map Prod.fst) feed =
          m.decodeSamples domain (some k) samples feed) ∧
      (∀ k k' ds, k ≤ k' → m.decodeSamples domain (some k') samples feed = .ok ds →
        m.decodeSamples domain (some k) samples feed = .ok (ds.take k)) ∧
      ∀ k? samples', samples'.Perm samples →
        (samples.Pairwise fun s t => Binary64.rank s.energy t.energy ≠ .eq) →
        m.decodeSamples domain k? samples' feed = m.decodeSamples domain k? samples feed := by
  refine ⟨fun x y => ⟨Binary64.rank_eq_iff, Binary64.rank_lt_of_lt, Binary64.rank_of_signs,
    Binary64.rank_of_positive, Binary64.rank_of_negative, fun hx hy =>
      ⟨Binary64.rank_of_isNaN_positive hx hy, Binary64.rank_of_isNaN_negative hx hy⟩⟩,
    by decide +kernel, ?_⟩
  obtain ⟨ranked, h, -⟩ := exists_isRanking (zipIdx_places samples)
  refine ⟨ranked, h, fun k => ?_, fun k ds => ?_, fun k err => ?_, rfl, fun k keep hkeep => ?_,
    fun k k' ds hk hds => ?_, fun k? samples' hperm hdistinct => ?_⟩
  · rw [m.decodeSamples_eq domain feed h]
    exact exists_mapM_iff
  · rw [m.decodeSamples_eq domain feed h]
    exact mapM_eq_ok_iff
  · rw [m.decodeSamples_eq domain feed h]
    exact mapM_eq_error_iff
  · exact m.decodeSamples_filter domain feed h hkeep
  · exact m.decodeSamples_take domain feed h hk hds
  · exact m.decodeSamples_of_perm domain feed hperm hdistinct k?

def singleVariable : Model Float where
  form := Qubo.ofPolynomial (Expr.variablePolynomial .binary "x")
  layout := Table.ofList [("x", [.name "x"])]
  constraints := ∅

/-- A positive value that is not a number reported for a sample without a value of the
variable, a tie, both zeros, and a negative value that is not a number. -/
def signedSamples : List (Sample Float) :=
  [⟨.list [], 0x7FF8000000000000⟩, ⟨.list [1], 0⟩, ⟨.list [0], 0⟩,
    ⟨.list [0], 0x8000000000000000⟩, ⟨.list [1], 0xFFF8000000000001⟩]

theorem decodeSamples_ranked_signedSamples :
    let decoded (k? : Option Nat) (samples : List (Sample Float)) :=
      singleVariable.decodeSamples .binary k? samples ∅
    ∃ ds, decoded (some 4) signedSamples = .ok ds ∧
      List.Forall₂ (fun values d => singleVariable.decode .binary (.list values) ∅ = .ok d)
        [[1], [0], [1], [0]] ds ∧
      decoded (some 4) (signedSamples.drop 1) = .ok ds ∧
      decoded (some 2) signedSamples = .ok (ds.take 2) ∧
      decoded none signedSamples = .error (.lengthMismatch 1 0) ∧
      decoded (some 1) [⟨.list [0], 0x8000000000000000⟩, ⟨.list [1], 0⟩] =
        decoded (some 1) [⟨.list [1], 0⟩, ⟨.list [0], 0x8000000000000000⟩] := by
  intro decoded
  obtain ⟨-, -, ranked, hranking, hok, hdecoded, herror, hall, hkept, htake, -⟩ :=
    decodeSamples_ranked singleVariable .binary ∅ signedSamples
  have hranked : ranked = [(⟨.list [1], 0xFFF8000000000001⟩, 4),
      (⟨.list [0], 0x8000000000000000⟩, 3), (⟨.list [1], 0⟩, 1), (⟨.list [0], 0⟩, 2),
      (⟨.list [], 0x7FF8000000000000⟩, 0)] :=
    hranking.unique ⟨.trans (.cons _ (.cons _ (.swap _ _ _)))
      (List.reverse_perm signedSamples.zipIdx), by decide +kernel⟩
  subst hranked
  have hvalid : ∀ x : Float, x = 0 ∨ x = 1 →
      ∃ d, singleVariable.decode .binary (.list [x]) ∅ = .ok d := by
    rintro x (rfl | rfl) <;> exact exists_eq_ok (by decide +kernel)
  obtain ⟨ds, hds⟩ := (hok 4).mpr (by simp [hvalid])
  refine ⟨ds, hds, ?_, ?_, htake 2 4 ds (by decide) hds, ?_, ?_⟩
  · simpa [List.forall₂_cons_left_iff] using (hdecoded 4 ds).mp hds
  · exact (hkept 4 (fun place => place != 0) (by decide)).trans hds
  · exact hall.trans ((herror 5 _).mpr ⟨[_, _, _, _], _, [], rfl, by simp [hvalid], rfl⟩)
  · obtain ⟨-, -, -, -, -, -, -, -, -, -, hperm⟩ :=
      decodeSamples_ranked singleVariable .binary ∅
        [⟨.list [1], 0⟩, ⟨.list [0], 0x8000000000000000⟩]
    exact hperm (some 1) _ (.swap _ _ _) (by decide +kernel)

end PseudoBoolean.Model
