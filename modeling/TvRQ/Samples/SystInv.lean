/-
# Solving for the source symbols

`test_syst_inv` of `rq_syst_inv.c` compiles the IDs of the source symbols, but
only for the numbers of symbols in a table of its own.  These are the numbers
that symbols are padded to, and padding does not change the matrix: what the
test says holds for every number of symbols in between as well.
-/

import TvRQ.Samples.Programs

namespace TvRQ

open Imperative

/-- The numbers of symbols that are tested. -/
@[irreducible]
def Kprime : List ℕ := [
  10, 12, 18, 20, 26, 30, 32, 36, 42, 46, 48, 49, 55, 60, 62, 69, 75, 84, 88, 91, 95, 97, 101,
  114, 119, 125, 127, 138, 140, 149, 153, 160, 166, 168, 179, 181, 185, 187, 200, 213, 217, 225,
  236, 242, 248, 257, 263, 269, 280, 295, 301, 305, 324, 337, 341, 347, 355, 362, 368, 372, 380,
  385, 393, 405, 418, 428, 434, 447, 453, 466, 478, 486, 491, 497, 511, 526, 532, 542, 549, 557,
  563, 573, 580, 588, 594, 600, 606, 619, 633, 640, 648, 666, 675, 685, 693, 703, 718, 728, 736,
  747, 759, 778, 792, 802, 811, 821, 835, 845, 860, 870, 891, 903, 913, 926, 938, 950, 963, 977,
  989, 1002, 1020, 1032, 1050, 1074, 1085, 1099, 1111, 1136, 1152, 1169, 1183, 1205, 1220, 1236,
  1255, 1269, 1285, 1306, 1347, 1361, 1389, 1404, 1420, 1436, 1461, 1477, 1502, 1522, 1539, 1561,
  1579, 1600, 1616, 1649, 1673, 1698, 1716, 1734, 1759, 1777, 1800, 1824, 1844, 1863, 1887, 1906,
  1926, 1954, 1979, 2005, 2040, 2070, 2103, 2125, 2152, 2195, 2217, 2247, 2278, 2315, 2339, 2367,
  2392, 2416, 2447, 2473, 2502, 2528, 2565, 2601, 2640, 2668, 2701, 2737, 2772, 2802, 2831, 2875,
  2906, 2938, 2979, 3015, 3056, 3101, 3151, 3186, 3224, 3265, 3299, 3344, 3387, 3423, 3466, 3502,
  3539, 3579, 3616, 3658, 3697, 3751, 3792, 3840, 3883, 3924, 3970, 4015, 4069, 4112, 4165, 4207,
  4252, 4318, 4365, 4418, 4468, 4513, 4567, 4626, 4681, 4731, 4780, 4838, 4901, 4954, 5008, 5063,
  5116, 5172, 5225, 5279, 5334, 5391, 5449, 5506, 5566, 5637, 5694, 5763, 5823, 5896, 5975, 6039,
  6102, 6169, 6233, 6296, 6363, 6427, 6518, 6589, 6655, 6730, 6799, 6878, 6956, 7033, 7108, 7185,
  7281, 7360, 7445, 7520, 7596, 7675, 7770, 7855, 7935, 8030, 8111, 8194, 8290, 8377, 8474, 8559,
  8654, 8744, 8837, 8928, 9019, 9111, 9206, 9303, 9400, 9497, 9601, 9708, 9813, 9916, 10017,
  10120, 10241, 10351, 10458, 10567, 10676, 10787, 10899, 11015, 11130, 11245, 11358, 11475,
  11590, 11711, 11829, 11956, 12087, 12208, 12333, 12460, 12593, 12726, 12857, 13002, 13143,
  13284, 13417, 13558, 13695, 13833, 13974, 14115, 14272, 14415, 14560, 14713, 14862, 15011,
  15170, 15325, 15496, 15651, 15808, 15977, 16161, 16336, 16505, 16674, 16851, 17024, 17195,
  17376, 17559, 17742, 17929, 18116, 18309, 18503, 18694, 18909, 19126, 19325, 19539, 19740,
  19939, 20152, 20355, 20564, 20778, 20988, 21199, 21412, 21629, 21852, 22073, 22301, 22536,
  22779, 23010, 23252, 23491, 23730, 23971, 24215, 24476, 24721, 24976, 25230, 25493, 25756,
  26022, 26291, 26566, 26838, 27111, 27392, 27682, 27959, 28248, 28548, 28845, 29138, 29434,
  29731, 30037, 30346, 30654, 30974, 31285, 31605, 31948, 32272, 32601, 32932, 33282, 33623,
  33961, 34302, 34654, 35031, 35395, 35750, 36112, 36479, 36849, 37227, 37606, 37992, 38385,
  38787, 39176, 39576, 39980, 40398, 40816, 41226, 41641, 42067, 42490, 42916, 43388, 43840,
  44279, 44729, 45183, 45638, 46104, 46574, 47047, 47523, 48007, 48489, 48976, 49470, 49978,
  50511, 51017, 51530, 52062, 52586, 53114, 53650, 54188, 54735, 55289, 55843, 56403]

/-- Compile the IDs of the source symbols; the result is an error code. -/
def compileSource (K : ℕ) (progMem : Ptr) : Prog Client ℤ := do
  let (err, sizes) ← embed (rqInterGetMemSizes K 0 true true true)
  if err < 0 then
    pure err
  else do
    let z : Sizes := .ofQuery sizes (0, none, none) progMem
    runNofail (· < 0)
      [Call.run z (.interInit K 0), Call.run z (.interAddIds 0 K), Call.run z .interCompile]

/-- The loop over the table, whose members from the current one on are left.  Each
number of symbols gets memory of its own. -/
def systInvLoop (K_lower K_upper : ℤ) (progMem : Ptr) (mem : ℕ → Client) :
    List ℕ → Except Fault Bool
  | [] => pure true
  | K :: rest =>
      if K ≤ K_upper then
        if K < K_lower then
          systInvLoop K_lower K_upper progMem mem rest
        else do
          let (err, _) ← compileSource K progMem (mem K)
          if err < 0 then
            pure false
          else
            systInvLoop K_lower K_upper progMem mem rest
      else
        pure true

/-- Check for invertibility from the `K` source symbols. -/
def testSystInv (K_lower K_upper : ℤ) (progMem : Ptr) (mem : ℕ → Client) : Except Fault Bool :=
  systInvLoop K_lower K_upper progMem mem Kprime

/-! ## Padding -/

section Padding

variable {P : Parameters}

/-- The LT rows of the source symbols and of the padding are those of the first ISIs. -/
theorem Parameters.Valid.rowISI_source (hP : P.Valid) {r : ℕ} (hr : r < P.Kprime) :
    rowISI P (requested 0 P.K) r = UInt32.ofNat r := by
  have hone := hP.one_le_K
  have hle := hP.K_le
  have hmax := hP.Kprime_le
  unfold rowISI
  rw [length_requested]
  split_ifs with hlt
  · have hget : (requested 0 P.K).getD r 0 = UInt32.ofNat r := by
      rw [requested, List.getD_eq_getElem?_getD, List.getElem?_map, List.getElem?_range hlt]
      simp [ofInt_natCast]
    have hsource : ¬ UInt32.ofInt P.K ≤ UInt32.ofNat r := by
      rw [UInt32.le_iff_toNat_le, toNat_ofInt, UInt32.toNat_ofNat']
      omega
    rw [hget, esiToISI, if_neg hsource, UInt32.add_zero]
  · have hisi : P.K + (r - P.K.toNat : ℕ) = (r : ℤ) := by omega
    rw [hisi, ofInt_natCast]

theorem Parameters.Valid.constraintMatrix_source (hP : P.Valid) (r c : ℕ) :
    constraintMatrix P (requested 0 P.K) r c =
      if r < P.Kprime then isiRow P (UInt32.ofNat r) c
      else if r < P.Kprime + P.S then ldpcTable P (r - P.Kprime) c
      else hdpcTable P (r - (P.Kprime + P.S)) c := by
  have hone := hP.one_le_K
  have hle := hP.K_le
  have hsum : P.K.toNat + P.nPad = P.Kprime := by
    unfold Parameters.nPad
    omega
  unfold constraintMatrix
  rw [length_requested, hsum]
  split_ifs with hlt
  · rw [hP.rowISI_source hlt]
  all_goals rfl

theorem Parameters.Valid.constraintRows_source (hP : P.Valid) :
    constraintRows P (requested 0 P.K) = P.L := by
  have hone := hP.one_le_K
  have hle := hP.K_le
  have hL := hP.L_eq
  unfold constraintRows Parameters.nPad
  rw [length_requested]
  omega

/-- The source symbols determine the block if they do so together with the padding. -/
theorem fullRank_source_iff {K : ℤ} (hget : parametersGet K = .ok P) (hK : P.K ≠ -1) :
    FullRank P (requested 0 K) ↔ FullRank { P with K := P.Kprime } (requested 0 P.Kprime) := by
  have hP := parametersGet_valid hget hK
  have hP' : Parameters.Valid { P with K := P.Kprime } :=
    parametersGet_valid (parametersGet_Kprime hget hK) (by
      show (P.Kprime : ℤ) ≠ -1
      omega)
  obtain rfl : P.K = K := (parametersGet_row hget hK).2.1
  have hsame : constraintMatrix P (requested 0 P.K) =
      constraintMatrix { P with K := P.Kprime } (requested 0 P.Kprime) := by
    funext r c
    rw [hP.constraintMatrix_source]
    exact (hP'.constraintMatrix_source r c).symm
  have hrows : constraintRows P (requested 0 P.K) =
      constraintRows { P with K := P.Kprime } (requested 0 P.Kprime) := by
    rw [hP.constraintRows_source]
    exact hP'.constraintRows_source.symm
  rw [FullRank, FullRank, hsame, hrows]

end Padding

/-! ## The table -/

theorem Kprime_eq : Kprime = baseParamSets.map BaseParamSet.Kprime := by decide +kernel

theorem Kprime_pos : ∀ K ∈ Kprime, 0 < K := by decide +kernel

theorem Kprime_chain : Kprime.IsChain (· ≤ ·) := by decide +kernel

/-- Up to here the number of entries of the matrix is an `int`. -/
theorem baseParamSets_entries : ∀ row ∈ baseParamSets, row.Kprime < 45638 →
    (row.Kprime + row.S + row.H) * (row.Kprime + row.S + row.H) < 2 ^ 31 := by decide +kernel

theorem mem_Kprime {K : ℤ} {P : Parameters} (hget : parametersGet K = .ok P) (hK : P.K ≠ -1) :
    P.Kprime ∈ Kprime := by
  obtain ⟨-, -, row, hrow, hKp, -⟩ := parametersGet_row hget hK
  rw [Kprime_eq, hKp]
  exact List.mem_map_of_mem (List.mem_of_find?_eq_some hrow)

/-- There is no padding for the numbers in the table. -/
theorem parametersGet_of_mem_Kprime {K : ℕ} (hmem : K ∈ Kprime) :
    ∃ P, parametersGet K = .ok P ∧ P.K ≠ -1 ∧ P.Kprime = K := by
  have hpos := Kprime_pos K hmem
  rw [Kprime_eq] at hmem
  obtain ⟨row, hrow, rfl⟩ := List.mem_map.mp hmem
  obtain ⟨P, hget⟩ := exists_parametersGet row.Kprime
  have hcheck := baseParamSets_check row hrow
  simp only [BaseParamSet.check, Bool.and_eq_true, decide_eq_true_eq] at hcheck
  have hK : P.K ≠ -1 := (parametersGet_supported hget).mpr ⟨by omega, by omega⟩
  obtain ⟨-, -, row', hfind, hKp, -⟩ := parametersGet_row hget hK
  have hle : row.Kprime ≤ row'.Kprime := by simpa using List.find?_some hfind
  have hge := (find?_rel baseParamSets_chain hfind hrow (by simp)).1
  exact ⟨P, hget, hK, by omega⟩

/-! ## The test -/

section Test

variable {K : ℕ} {P : Parameters} {progMem : Ptr} {s : Client} {K_lower K_upper : ℤ}
  {mem : ℕ → Client}

theorem compileSource_ends (hget : parametersGet K = .ok P) (hK : P.K ≠ -1)
    (hsize : P.L * P.L < 2 ^ 31)
    (hs : (clientSizes P (requested 0 K) progMem 0).Fits s) :
    Ends (compileSource K progMem) s fun err _ =>
      err = if FullRank P (requested 0 K) then 0 else rqErrInsuffIds := by
  have hP := parametersGet_valid hget hK
  have hKeq : P.K = K := (parametersGet_row hget hK).2.1
  have hrows : constraintRows P (requested 0 K) = P.L := hKeq ▸ hP.constraintRows_source
  have hlen : (requested 0 K).length = K := length_requested 0 K
  have hsize' : constraintRows P (requested 0 K) * P.L < 2 ^ 31 := hrows.symm ▸ hsize
  have hsizes := rqInterGetMemSizes_client hget hK hsize' progMem 0 true
  rw [hlen, sub_self] at hsizes
  let L : Layout := clientLayout hP hsize' progMem (by decide : (0 - sizeofWorkMem) / 4 < 2 ^ 31)
  have hL : L.toSizes = clientSizes P (requested 0 K) progMem 0 := rfl
  have hR : Related L s (.empty (L.bytes s.heap)) := Sizes.Fits.related hs
  unfold compileSource
  rw [ends_bind, ends_embed]
  refine ⟨_, hsizes, ?_⟩
  dsimp only
  rw [if_neg (by decide)]
  show Ends (runNofail (· < 0) [Call.run L.toSizes (.interInit K 0),
    Call.run L.toSizes (.interAddIds 0 K), Call.run L.toSizes .interCompile]) s _
  exact clientRange_cons_ends hget hK hL rfl rfl hR
    (fun hfull _ _ => ends_pure.mpr (if_pos hfull).symm) fun hnot _ => (if_neg hnot).symm

/-- The block is determined by this number of source symbols. -/
def Invertible (K : ℕ) : Prop := ∀ P, parametersGet K = .ok P → FullRank P (requested 0 K)

theorem systInvLoop_ok (hsmall : K_upper < 45638)
    (hmem : ∀ K ∈ Kprime, ∀ P, parametersGet K = .ok P →
      (clientSizes P (requested 0 K) progMem 0).Fits (mem K))
    {l : List ℕ} (hsub : ∀ K ∈ l, K ∈ Kprime) (hsorted : l.Pairwise (· ≤ ·)) :
    ∃ passed, systInvLoop K_lower K_upper progMem mem l = .ok passed ∧
      (passed = true ↔ ∀ K ∈ l, K_lower ≤ K → K ≤ K_upper → Invertible K) := by
  induction l with
  | nil => exact ⟨true, rfl, by simp⟩
  | cons K rest ih =>
      obtain ⟨passed, hrun, hpassed⟩ := ih (fun K' hK' => hsub K' (List.mem_cons_of_mem _ hK'))
        hsorted.of_cons
      have hmore := (List.pairwise_cons.mp hsorted).1
      unfold systInvLoop
      by_cases hupper : (K : ℤ) ≤ K_upper
      swap
      · rw [if_neg hupper]
        refine ⟨true, rfl, fun _ K' hK' _ hle => ?_, fun _ => rfl⟩
        rcases List.mem_cons.mp hK' with rfl | hK'
        · exact absurd hle hupper
        · have hge := hmore K' hK'
          omega
      rw [if_pos hupper]
      by_cases hlower : (K : ℤ) < K_lower
      · rw [if_pos hlower]
        refine ⟨passed, hrun, hpassed.trans ?_⟩
        rw [List.forall_mem_cons]
        exact ⟨fun h => ⟨fun hle => absurd hle (by omega), h⟩, fun h => h.2⟩
      rw [if_neg hlower]
      obtain ⟨P, hget, hK, hKp⟩ := parametersGet_of_mem_Kprime (hsub K List.mem_cons_self)
      have hsize : P.L * P.L < 2 ^ 31 := by
        obtain ⟨-, -, row, hfind, hrow, -, -, -, -, hL, -⟩ := parametersGet_row hget hK
        rw [hL]
        exact baseParamSets_entries row (List.mem_of_find?_eq_some hfind) (by omega)
      obtain ⟨err, s, herr, hret⟩ := compileSource_ends hget hK hsize
        (hmem K (hsub K List.mem_cons_self) P hget)
      have hiff : Invertible K ↔ FullRank P (requested 0 K) :=
        ⟨fun h => h P hget, fun h P' hget' => by cases hget.symm.trans hget'; exact h⟩
      rw [herr]
      simp only [bind, Except.bind]
      by_cases hfull : FullRank P (requested 0 K)
      · rw [if_pos hfull] at hret
        rw [hret, if_neg (lt_irrefl _)]
        refine ⟨passed, hrun, hpassed.trans ?_⟩
        rw [List.forall_mem_cons]
        exact ⟨fun h => ⟨fun _ _ => hiff.mpr hfull, h⟩, fun h => h.2⟩
      · rw [if_neg hfull] at hret
        rw [hret, if_pos (by decide)]
        refine ⟨false, rfl, fun h => absurd h Bool.false_ne_true, fun h => ?_⟩
        exact absurd (hiff.mp (h K List.mem_cons_self (not_lt.mp hlower) hupper)) hfull

/-- The test passes exactly if every number of source symbols that is padded to one
between the limits determines the block. -/
theorem testSystInv_iff (hsmall : K_upper < 45638)
    (hmem : ∀ K ∈ Kprime, ∀ P, parametersGet K = .ok P →
      (clientSizes P (requested 0 K) progMem 0).Fits (mem K)) :
    ∃ passed, testSystInv K_lower K_upper progMem mem = .ok passed ∧
      (passed = true ↔ ∀ K P, parametersGet K = .ok P → P.K ≠ -1 → K_lower ≤ P.Kprime →
        P.Kprime ≤ K_upper → FullRank P (requested 0 K)) := by
  obtain ⟨passed, hrun, hpassed⟩ := @systInvLoop_ok progMem K_lower K_upper mem hsmall hmem
    Kprime (fun _ h => h) (List.isChain_iff_pairwise.mp Kprime_chain)
  refine ⟨passed, hrun, hpassed.trans ?_⟩
  constructor
  · intro h K P hget hK hlower hupper
    rw [fullRank_source_iff hget hK]
    exact h P.Kprime (mem_Kprime hget hK) hlower hupper _ (parametersGet_Kprime hget hK)
  · intro h K hmem hlower hupper P hget
    obtain ⟨P', hget', hK, hKp⟩ := parametersGet_of_mem_Kprime hmem
    cases hget.symm.trans hget'
    exact h K P hget hK (by omega) (by omega)

end Test

/-- Memory of given sizes, with nothing in it yet. -/
def freshClient (z : Sizes) : Client where
  interWork := freshMem z.interCap
  interProg := none
  outWork := freshMem z.outCap
  outProgMem := Array.replicate (z.outProgSize / 4) 0
  heap := ⟨#[Array.replicate z.interProgSize 0]⟩

theorem freshClient_fits {z : Sizes} (hprog : z.interProgMem = ⟨0, 0⟩) :
    z.Fits (freshClient z) where
  interWork_size := Array.size_replicate
  outWork_size := Array.size_replicate
  outProg_size := Array.size_replicate
  interProg_room := fun k hk => by
    rw [hprog]
    exact Heap.load_isSome.mpr (by simp [freshClient, Heap.blockSize, hk])

/-- Memory for the source symbols. -/
def sourceMemory (K : ℕ) : Client :=
  match parametersGet K with
  | .ok P => freshClient (clientSizes P (requested 0 K) ⟨0, 0⟩ 0)
  | .error _ => freshClient ⟨0, ⟨0, 0⟩, 0, 0, 0⟩

/-- The limits that the program has by default. -/
theorem testSystInv_iff_default : ∃ passed,
    testSystInv 1 300 ⟨0, 0⟩ sourceMemory = .ok passed ∧
      (passed = true ↔ ∀ K P, parametersGet K = .ok P → P.K ≠ -1 → (1 : ℤ) ≤ P.Kprime →
        P.Kprime ≤ (300 : ℤ) → FullRank P (requested 0 K)) :=
  testSystInv_iff (by decide) fun K _ P hget => by
    rw [sourceMemory, hget]
    exact freshClient_fits rfl

end TvRQ
