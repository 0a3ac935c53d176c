/-
# Programs of the right size

A client that asks for the sizes, with as many extra symbols as it has IDs
besides the source symbols, always has enough memory.  The calls that it makes
return 0 one after the other, and what the compiler returns is decided by the
rank.  This is shown for each call from the refinement, and for the loops over
the IDs by induction.
-/

import TvRQ.Samples.FileEncDec

namespace TvRQ

open Imperative

/-! ## Calls in turn -/

section Turn

variable {σ κ : Type} {failed : ℤ → Bool} {ps : List (Prog σ ℤ)} {s : σ} {Q : ℤ → σ → Prop}

/-- A call that returns 0 is followed by the others. -/
theorem runNofail_cons_ends {p : Prog σ ℤ} {I : σ → Prop} (hzero : failed 0 = false)
    (hp : Ends p s fun err s' => err = 0 ∧ I s')
    (hps : ∀ s', I s' → Ends (runNofail failed ps) s' Q) :
    Ends (runNofail failed (p :: ps)) s Q := by
  apply hp.bind
  rintro err s' ⟨rfl, hI⟩
  rw [hzero, if_neg Bool.false_ne_true]
  exact hps s' hI

/-- One call for each member of a list; the invariant speaks of the members so far. -/
theorem runNofail_map_ends {step : κ → Prog σ ℤ} (I : List κ → σ → Prop) {l : List κ}
    (hzero : failed 0 = false)
    (hstep : ∀ done X rest s, l = done ++ X :: rest → I done s →
      Ends (step X) s fun err s' => err = 0 ∧ I (done ++ [X]) s')
    (h0 : I [] s) (hps : ∀ s', I l s' → Ends (runNofail failed ps) s' Q) :
    Ends (runNofail failed (l.map step ++ ps)) s Q := by
  have hmain : ∀ rest done s, l = done ++ rest → I done s →
      Ends (runNofail failed (rest.map step ++ ps)) s Q := by
    intro rest
    induction rest with
    | nil =>
        intro done s hl hI
        rw [List.append_nil] at hl
        exact hps s (hl ▸ hI)
    | cons X rest ih =>
        intro done s hl hI
        refine runNofail_cons_ends hzero (hstep done X rest s hl hI) fun s' hI' => ?_
        exact ih (done ++ [X]) s' (by rw [hl, List.append_assoc]; rfl) hI'
  exact hmain l [] s rfl h0

/-- The same for calls whose results are not looked at. -/
theorem forM_ends {step : κ → Prog σ Unit} (I : List κ → σ → Prop) {l : List κ}
    (hstep : ∀ done X rest s, l = done ++ X :: rest → I done s →
      Ends (step X) s fun _ s' => I (done ++ [X]) s')
    (h0 : I [] s) : Ends (forM l step) s fun _ => I l := by
  have hmain : ∀ rest done s, l = done ++ rest → I done s →
      Ends (forM rest step) s fun _ => I l := by
    intro rest
    induction rest with
    | nil =>
        intro done s hl hI
        rw [List.append_nil] at hl
        exact ends_pure.mpr (hl ▸ hI)
    | cons X rest ih =>
        intro done s hl hI
        rw [List.forM_cons]
        refine (hstep done X rest s hl hI).bind fun _ s' hI' => ?_
        exact ih (done ++ [X]) s' (by rw [hl, List.append_assoc]; rfl) hI'
  exact hmain l [] s rfl h0

end Turn

/-! ## Calls that return 0 -/

section Calls

variable {L : Layout} {s : Client} {a : Codec} {q : Request}

/-- The request with more IDs. -/
def Request.append (q : Request) (ids : List UInt32) : Request := { q with ids := q.ids ++ ids }

/-- A word survives being read as an `int`. -/
theorem ofInt_intOfWord (X : UInt32) : UInt32.ofInt (intOfWord X) = X := by
  have hmod : (X.toNat : ℤ).bmod (2 ^ 32) % ((2 ^ 32 : ℕ) : ℤ) =
      X.toNat % ((2 ^ 32 : ℕ) : ℤ) := Int.bmod_emod
  have hlt := X.toNat_lt
  apply UInt32.toNat_inj.mp
  rw [toNat_ofInt, intOfWord, wrap32]
  omega

theorem requested_one (X : UInt32) : requested (intOfWord X) 1 = [X] := by
  show [UInt32.ofInt (intOfWord X + 0)] = [X]
  rw [Int.add_zero, ofInt_intOfWord]

/-- A range of IDs that there is room for. -/
theorem Request.add_all {cap : ℕ} (nBeg : ℤ) {nAdd : ℤ} (hpos : 0 ≤ nAdd)
    (hle : q.ids.length + nAdd ≤ cap) :
    q.addRet cap nAdd = 0 ∧ q.add cap nBeg nAdd = q.append (requested nBeg nAdd) := by
  constructor
  · rw [addRet, if_pos hle]
  · have hlen : (q.ids ++ requested nBeg nAdd).length ≤ cap := by
      rw [List.length_append, length_requested]
      omega
    rw [add, append, List.take_of_length_le hlen]

theorem Related.interInit_ends (hR : Related L s a) {nK nMaxExtra : ℤ}
    (hget : parametersGet nK = .ok q.params) (hids : q.ids = [])
    (hroom : sizeofWorkMem ≤ L.interWorkSize) (hcap : nK + nMaxExtra ≤ L.interCap)
    (hint : IsInt (nK + nMaxExtra)) :
    Ends (Call.run L.toSizes (.interInit nK nMaxExtra)) s fun err s' =>
      err = 0 ∧ Related L s' { a with interWork := some q } := by
  apply (interInit_refines hR hint).mono
  rintro err s' ⟨b, hstep, hR'⟩
  cases hstep with
  | interInit_noroom hsize => omega
  | interInit_unsupported _ hget' hK =>
      cases hget.symm.trans hget'
      exact absurd hK q.K_ne
  | interInit_small _ _ _ hsmall => omega
  | interInit _ hget' hids' _ =>
      obtain rfl := Request.ext (Except.ok.inj (hget.symm.trans hget')) (hids.trans hids'.symm)
      exact ⟨rfl, hR'⟩

theorem Related.outInit_ends (hR : Related L s a) {nK : ℤ}
    (hget : parametersGet nK = .ok q.params) (hids : q.ids = [])
    (hroom : sizeofWorkMem ≤ L.outWorkSize) :
    Ends (Call.run L.toSizes (.outInit nK)) s fun err s' =>
      err = 0 ∧ Related L s' { a with outWork := some q } := by
  apply (outInit_refines hR nK).mono
  rintro err s' ⟨b, hstep, hR'⟩
  cases hstep with
  | outInit_noroom hsize => omega
  | outInit_unsupported _ hget' hK =>
      cases hget.symm.trans hget'
      exact absurd hK q.K_ne
  | outInit _ hget' hids' =>
      obtain rfl := Request.ext (Except.ok.inj (hget.symm.trans hget')) (hids.trans hids'.symm)
      exact ⟨rfl, hR'⟩

theorem Related.interAddIds_ends (hR : Related L s a) (hwork : a.interWork = some q)
    {nBeg nAdd : ℤ} (hpos : 0 ≤ nAdd) (hle : q.ids.length + nAdd ≤ L.interCap) :
    Ends (Call.run L.toSizes (.interAddIds nBeg nAdd)) s fun err s' =>
      err = 0 ∧ Related L s' { a with interWork := some (q.append (requested nBeg nAdd)) } := by
  have hcap := L.interCap_lt
  have hcan : q.CanAdd nAdd := ⟨by omega, by omega⟩
  obtain ⟨hret, hadd⟩ := q.add_all nBeg hpos hle
  apply (interAddIds_refines hR hwork hcan).mono
  rintro err s' ⟨b, hstep, hR'⟩
  cases hstep with
  | interAddIds hwork' =>
      obtain rfl := Option.some.inj (hwork.symm.trans hwork')
      rw [hadd] at hR'
      exact ⟨hret, hR'⟩

theorem Related.outAddIds_ends (hR : Related L s a) (hwork : a.outWork = some q)
    {nBeg nAdd : ℤ} (hpos : 0 ≤ nAdd) (hle : q.ids.length + nAdd ≤ L.outCap) :
    Ends (Call.run L.toSizes (.outAddIds nBeg nAdd)) s fun err s' =>
      err = 0 ∧ Related L s' { a with outWork := some (q.append (requested nBeg nAdd)) } := by
  have hcap := L.outCap_lt
  have hcan : q.CanAdd nAdd := ⟨by omega, by omega⟩
  obtain ⟨hret, hadd⟩ := q.add_all nBeg hpos hle
  apply (outAddIds_refines hR hwork hcan).mono
  rintro err s' ⟨b, hstep, hR'⟩
  cases hstep with
  | outAddIds hwork' =>
      obtain rfl := Option.some.inj (hwork.symm.trans hwork')
      rw [hadd] at hR'
      exact ⟨hret, hR'⟩

theorem Related.addOne_ends (hR : Related L s a) (hwork : a.interWork = some q)
    (hlt : q.ids.length < L.interCap) (X : UInt32) :
    Ends (Call.run L.toSizes (addOne X)) s fun err s' =>
      err = 0 ∧ Related L s' { a with interWork := some (q.append [X]) } := by
  rw [← requested_one X]
  exact hR.interAddIds_ends hwork (by omega) (by omega)

theorem Related.outAddOne_ends (hR : Related L s a) (hwork : a.outWork = some q)
    (hlt : q.ids.length < L.outCap) (X : UInt32) :
    Ends (Call.run L.toSizes (outAddOne X)) s fun err s' =>
      err = 0 ∧ Related L s' { a with outWork := some (q.append [X]) } := by
  rw [← requested_one X]
  exact hR.outAddIds_ends hwork (by omega) (by omega)

theorem Related.interCompile_ends (hR : Related L s a) (hwork : a.interWork = some q)
    (hsize : q.interSize ≤ L.interProgSize) :
    Ends (Call.run L.toSizes .interCompile) s fun err s' =>
      (FullRank q.params q.ids ∧ err = 0 ∧ Related L s' { a with interProg := some q }) ∨
        (¬ FullRank q.params q.ids ∧ err = rqErrInsuffIds) := by
  apply (interCompile_refines hR hwork).mono
  rintro err s' ⟨b, hstep, hR'⟩
  cases hstep with
  | interCompile_small hwork' hsmall =>
      obtain rfl := Option.some.inj (hwork.symm.trans hwork')
      omega
  | interCompile_insuff hwork' _ hrank =>
      obtain rfl := Option.some.inj (hwork.symm.trans hwork')
      exact Or.inr ⟨hrank, rfl⟩
  | interCompile hwork' _ hrank =>
      obtain rfl := Option.some.inj (hwork.symm.trans hwork')
      exact Or.inl ⟨hrank, rfl, hR'⟩

theorem Related.outCompile_ends (hR : Related L s a) (hwork : a.outWork = some q)
    (hsize : q.outSize = L.outProgSize) :
    Ends (Call.run L.toSizes .outCompile) s fun err s' =>
      err = 0 ∧ Related L s' { a with outProg := some q } := by
  apply (outCompile_refines hR hwork hsize.le).mono
  rintro err s' ⟨b, hstep, hR'⟩
  cases hstep with
  | outCompile_large hwork' hlarge =>
      obtain rfl := Option.some.inj (hwork.symm.trans hwork')
      omega
  | outCompile hwork' _ =>
      obtain rfl := Option.some.inj (hwork.symm.trans hwork')
      exact ⟨rfl, hR'⟩

/-- The block is the one that the symbols determine. -/
theorem Related.interExecute_ends (hR : Related L s a) (hprog : a.interProg = some q) {w : ℕ}
    (hsymSize : w < 2 ^ 31) {inMem interMem : Ptr} (inSize : ℕ) {Y : Table GF256}
    (hbuf : SymbolBuffers a.bytes w inMem q.ids.length interMem q.params.L)
    (hY : a.bytes.Shows inMem q.ids.length w Y) :
    Ends (Call.run L.toSizes (.interExecute w inMem inSize interMem (q.params.L * w))) s
      fun err s' => err = 0 ∧ ∃ m C, Determines q.params q.ids w Y C ∧
        a.bytes.Replaced interMem q.params.L w C m ∧ Related L s' { a with bytes := m } := by
  apply (interExecute_refines hR hprog hsymSize fun _ => hbuf).mono
  rintro err s' ⟨b, hstep, hR'⟩
  cases hstep with
  | interExecute_small hprog' hsize =>
      obtain rfl := Option.some.inj (hprog'.symm.trans hprog)
      exact absurd hsize (lt_irrefl _)
  | @interExecute _ _ _ _ _ m Y' C _ hprog' _ hY' hC hbytes =>
      obtain rfl := Option.some.inj (hprog'.symm.trans hprog)
      exact ⟨rfl, m, C, hC.congr (hY'.unique hY), hbytes, hR'⟩

theorem Related.outExecute_ends (hR : Related L s a) (hprog : a.outProg = some q) {w : ℕ}
    (hsymSize : w < 2 ^ 31) {interMem outMem : Ptr} {C : Table GF256}
    (hbuf : SymbolBuffers a.bytes w interMem q.params.L outMem q.ids.length)
    (hC : a.bytes.Shows interMem q.params.L w C) :
    Ends (Call.run L.toSizes (.outExecute w interMem outMem (q.ids.length * w))) s
      fun err s' => err = 0 ∧ ∃ m, a.bytes.Replaced outMem q.ids.length w
        (symbolTable q.params q.ids C) m ∧ Related L s' { a with bytes := m } := by
  apply (outExecute_refines hR hprog hsymSize fun _ => hbuf).mono
  rintro err s' ⟨b, hstep, hR'⟩
  cases hstep with
  | outExecute_small hprog' hsize =>
      obtain rfl := Option.some.inj (hprog'.symm.trans hprog)
      exact absurd hsize (lt_irrefl _)
  | @outExecute _ _ _ _ m C' _ hprog' _ hC' hbytes =>
      obtain rfl := Option.some.inj (hprog'.symm.trans hprog)
      refine ⟨rfl, m, ⟨fun i hi c hc => ?_, hbytes.frame⟩, hR'⟩
      rw [hbytes.shows i hi c hc, symbolTable_congr fun j hj => hC'.unique hC j hj c hc]

/-- A byte that is not program memory is written. -/
theorem Related.write_ends (hR : Related L s a) {p : Ptr} (hp : (a.bytes p).isSome) (v : UInt8) :
    Ends (Call.run L.toSizes (.write p v)) s fun _ s' =>
      Related L s' { a with bytes := Function.update a.bytes p (some v) } := by
  apply (write_refines hR hp).mono
  rintro _ s' ⟨b, hstep, hR'⟩
  cases hstep
  exact hR'

end Calls

/-! ## Sizes that fit -/

section Fit

variable {K : ℤ} {P : Parameters} {ids : List UInt32} {progMem : Ptr} {outSize : ℕ} {s : Client}

/-- The sizes for a client that compiles the IDs. -/
def clientSizes (P : Parameters) (ids : List UInt32) (progMem : Ptr) (outSize : ℕ) : Sizes where
  interWorkSize := sizeofWorkMem + 4 * (ids.length + P.nPad)
  interProgMem := progMem
  interProgSize := sizeofInterProgram + 4 * constraintRows P ids + constraintRows P ids * P.L
  outWorkSize := outSize
  outProgSize := outSize

theorem interCap_clientSizes : (clientSizes P ids progMem outSize).interCap =
    ids.length + P.nPad := by
  show (sizeofWorkMem + 4 * (ids.length + P.nPad) - sizeofWorkMem) / 4 = _
  omega

/-- The sizes depend on the number of the IDs alone. -/
theorem clientSizes_congr {ids' : List UInt32} (h : ids.length = ids'.length) (progMem : Ptr)
    (outSize : ℕ) : clientSizes P ids progMem outSize = clientSizes P ids' progMem outSize := by
  unfold clientSizes constraintRows
  rw [h]

theorem outCap_clientSizes {n : ℕ} :
    (clientSizes P ids progMem (sizeofWorkMem + 4 * n)).outCap = n := by
  show (sizeofWorkMem + 4 * n - sizeofWorkMem) / 4 = n
  omega

/-- The number of rows is small when the number of entries is an `int`. -/
theorem constraintRows_lt (hP : P.Valid) (hsize : constraintRows P ids * P.L < 2 ^ 31) :
    constraintRows P ids < 2 ^ 30 := by
  have hL := hP.L_eq
  have hS := hP.S_pos
  have hK := hP.one_le_K
  have hKprime := hP.K_le
  have hmul : constraintRows P ids * 2 ≤ constraintRows P ids * P.L :=
    Nat.mul_le_mul_left _ (by omega)
  omega

/-- The sizes that the library reports to such a client. -/
theorem rqInterGetMemSizes_client (hget : parametersGet K = .ok P) (hK : P.K ≠ -1)
    (hsize : constraintRows P ids * P.L < 2 ^ 31) (progMem : Ptr) (outSize : ℕ) (askSymNum : Bool) :
    rqInterGetMemSizes K (ids.length - K) true true askSymNum = .ok (0,
      ⟨some (clientSizes P ids progMem outSize).interWorkSize,
        some (clientSizes P ids progMem outSize).interProgSize,
        if askSymNum then some P.L else none⟩) := by
  have hP := parametersGet_valid hget hK
  have hKeq : P.K = K := (parametersGet_row hget hK).2.1
  have hKprime := hP.K_le
  have hL := hP.L_eq
  have hlt := constraintRows_lt hP hsize
  have hpad : (P.nPad : ℤ) = P.Kprime - K := by
    unfold Parameters.nPad
    omega
  have hmaxRows : maxRows (ids.length - K) P = constraintRows P ids := by
    unfold maxRows constraintRows
    push_cast
    omega
  have hentries : ((constraintRows P ids : ℕ) : ℤ) * (P.L : ℤ) < 2 ^ 31 := by exact_mod_cast hsize
  have hrows : constraintRows P ids = ids.length + P.nPad + P.S + P.H := rfl
  rw [rqInterGetMemSizes_eq_ok hget hK, hmaxRows]
  have hpos : (0 : ℤ) ≤ (constraintRows P ids : ℤ) * P.L := by positivity
  have hwork : sizeOf64 (sizeofWorkMem + (ids.length - K + P.Kprime) * 4) =
      sizeofWorkMem + 4 * (ids.length + P.nPad) := by
    unfold sizeOf64 sizeofWorkMem
    omega
  have hL_pos : 1 ≤ P.L := by
    have hS := hP.S_pos
    omega
  have hprog : (sizeOf64 (progSize (constraintRows P ids) P) : ℤ) =
      progSize (constraintRows P ids) P := sizeOf64_progSize (by omega) hentries hL_pos
  have hprog' : sizeOf64 (progSize (constraintRows P ids) P) =
      sizeofInterProgram + 4 * constraintRows P ids + constraintRows P ids * P.L := by
    unfold progSize at hprog ⊢
    exact_mod_cast hprog
  refine ⟨⟨by omega, by omega⟩, ⟨by omega, by omega⟩, ⟨by omega, by omega⟩,
    ⟨by omega, hentries⟩, ?_⟩
  rw [if_pos rfl, hwork, hprog']
  rfl

/-- The buffers of such a client. -/
def clientLayout (hP : P.Valid) (hsize : constraintRows P ids * P.L < 2 ^ 31) (progMem : Ptr)
    (hout : (outSize - sizeofWorkMem) / 4 < 2 ^ 31) : Layout where
  toSizes := clientSizes P ids progMem outSize
  interCap_lt := by
    have hlt := constraintRows_lt hP hsize
    rw [interCap_clientSizes]
    unfold constraintRows at hlt
    omega
  outCap_lt := hout

/-- The IDs of the client. -/
def Request.ofIds (hget : parametersGet K = .ok P) (hK : P.K ≠ -1) (ids : List UInt32) :
    Request where
  params := P
  ids := ids
  params_eq := (parametersGet_row hget hK).2.1.symm ▸ hget
  K_ne := hK

variable {L : Layout} {a : Codec} {failed : ℤ → Bool} {ps : List (Prog Client ℤ)}
  {Q : ℤ → Client → Prop}

/-- Adding the IDs one by one. -/
theorem addOne_ends (hget : parametersGet K = .ok P) (hK : P.K ≠ -1)
    (hL : L.toSizes = clientSizes P ids progMem outSize) {done rest : List UInt32} {X : UInt32}
    (hids : ids = done ++ X :: rest)
    (hR : Related L s { a with interWork := some (.ofIds hget hK done) }) :
    Ends (Call.run L.toSizes (addOne X)) s fun err s' => err = 0 ∧
      Related L s' { a with interWork := some (.ofIds hget hK (done ++ [X])) } := by
  have hcap : L.interCap = ids.length + P.nPad := by rw [hL, interCap_clientSizes]
  have hlen : done.length < ids.length := by
    rw [hids, List.length_append, List.length_cons]
    omega
  have hlt : done.length < L.interCap := by omega
  exact hR.addOne_ends (q := .ofIds hget hK done) rfl hlt X

/-- The work memory has room for the IDs. -/
theorem clientInit_ends (hget : parametersGet K = .ok P) (hK : P.K ≠ -1)
    (hsize : constraintRows P ids * P.L < 2 ^ 31)
    (hL : L.toSizes = clientSizes P ids progMem outSize) (hR : Related L s a) :
    Ends (Call.run L.toSizes (.interInit K (ids.length - K))) s fun err s' => err = 0 ∧
      Related L s' { a with interWork := some (.ofIds hget hK []) } := by
  have hlt := constraintRows_lt (parametersGet_valid hget hK) hsize
  have hcap : L.interCap = ids.length + P.nPad := by rw [hL, interCap_clientSizes]
  have hroom : sizeofWorkMem ≤ L.interWorkSize := by
    rw [hL]
    exact Nat.le_add_right _ _
  unfold constraintRows at hlt
  exact hR.interInit_ends (q := .ofIds hget hK []) hget rfl hroom (by omega)
    ⟨by omega, by omega⟩

/-- The program memory has room for the program. -/
theorem clientCompile_ends (hget : parametersGet K = .ok P) (hK : P.K ≠ -1)
    (hL : L.toSizes = clientSizes P ids progMem outSize)
    (hR : Related L s { a with interWork := some (.ofIds hget hK ids) }) :
    Ends (Call.run L.toSizes .interCompile) s fun err s' =>
      (FullRank P ids ∧ err = 0 ∧ Related L s'
        { a with interWork := some (.ofIds hget hK ids), interProg := some (.ofIds hget hK ids) }) ∨
        (¬ FullRank P ids ∧ err = rqErrInsuffIds) := by
  have hsize : (Request.ofIds hget hK ids).interSize ≤ L.interProgSize := by
    rw [hL]
    apply le_of_eq
    show progSize (constraintRows P ids) P = _
    unfold progSize clientSizes
    push_cast
    rfl
  exact hR.interCompile_ends (q := .ofIds hget hK ids) rfl hsize

/-- The calls behind the compilation are made if the IDs are enough. -/
theorem clientCompile_cons_ends (hget : parametersGet K = .ok P) (hK : P.K ≠ -1)
    (hL : L.toSizes = clientSizes P ids progMem outSize) (hzero : failed 0 = false)
    (hinsuff : failed rqErrInsuffIds = true)
    (hR : Related L s { a with interWork := some (.ofIds hget hK ids) })
    (hps : FullRank P ids → ∀ s', Related L s'
      { a with interWork := some (.ofIds hget hK ids), interProg := some (.ofIds hget hK ids) } →
        Ends (runNofail failed ps) s' Q)
    (hfail : ¬ FullRank P ids → ∀ s', Q rqErrInsuffIds s') :
    Ends (runNofail failed (Call.run L.toSizes .interCompile :: ps)) s Q := by
  apply (clientCompile_ends hget hK hL hR).bind
  rintro err s' (⟨hfull, rfl, hR'⟩ | ⟨hnot, rfl⟩)
  · rw [hzero, if_neg Bool.false_ne_true]
    exact hps hfull s' hR'
  · rw [if_pos hinsuff]
    exact ends_pure.mpr (hfail hnot s')

/-- As many IDs as there are source symbols, asked for at once. -/
theorem clientRange_cons_ends (hget : parametersGet K = .ok P) (hK : P.K ≠ -1) {nBeg : ℤ}
    (hL : L.toSizes = clientSizes P (requested nBeg K) progMem outSize) (hzero : failed 0 = false)
    (hinsuff : failed rqErrInsuffIds = true) (hR : Related L s a)
    (hps : FullRank P (requested nBeg K) → ∀ s', Related L s' { a with
      interWork := some (.ofIds hget hK (requested nBeg K))
      interProg := some (.ofIds hget hK (requested nBeg K)) } → Ends (runNofail failed ps) s' Q)
    (hfail : ¬ FullRank P (requested nBeg K) → ∀ s', Q rqErrInsuffIds s') :
    Ends (runNofail failed (Call.run L.toSizes (.interInit K 0) ::
      Call.run L.toSizes (.interAddIds nBeg K) :: Call.run L.toSizes .interCompile :: ps)) s Q := by
  have hK_eq : P.K = K := (parametersGet_row hget hK).2.1
  have hK_pos := (parametersGet_valid hget hK).one_le_K
  have hcap : L.interCap = K.toNat + P.nPad := by rw [hL, interCap_clientSizes, length_requested]
  have hroom : sizeofWorkMem ≤ L.interWorkSize := by
    rw [hL]
    exact Nat.le_add_right _ _
  have hcap_lt := L.interCap_lt
  refine runNofail_cons_ends hzero (hR.interInit_ends (q := .ofIds hget hK []) hget rfl hroom
    (by omega) ⟨by omega, by omega⟩) fun s₁ hR₁ => ?_
  refine runNofail_cons_ends hzero (hR₁.interAddIds_ends (q := .ofIds hget hK []) rfl (by omega)
    (by rw [Request.ofIds, List.length_nil]; omega)) fun s₂ hR₂ => ?_
  exact clientCompile_cons_ends hget hK hL hzero hinsuff hR₂ hps hfail

/-- The IDs are in the work memory after the first calls. -/
theorem clientAdd_ends (hget : parametersGet K = .ok P) (hK : P.K ≠ -1)
    (hL : L.toSizes = clientSizes P ids progMem outSize) (hfailed : failed 0 = false)
    (hR : Related L s { a with interWork := some (.ofIds hget hK []) })
    (hps : ∀ s', Related L s' { a with interWork := some (.ofIds hget hK ids) } →
      Ends (runNofail failed ps) s' Q) :
    Ends (runNofail failed (ids.map (fun X => Call.run L.toSizes (addOne X)) ++ ps)) s Q := by
  refine runNofail_map_ends (fun done s' =>
    Related L s' { a with interWork := some (.ofIds hget hK done) }) hfailed ?_ hR hps
  exact fun done X rest s₁ hids hR₁ => addOne_ends hget hK hL hids hR₁

/-- A client that asks for the sizes for its own IDs is never told that there is
not enough memory: what it gets is decided by the number of source symbols and
by the rank. -/
theorem getProgram_ends (hget : parametersGet K = .ok P) (hint : IsInt (ids.length - K))
    (hsize : constraintRows P ids * P.L < 2 ^ 31)
    (hs : (clientSizes P ids progMem 0).Fits s) :
    Ends (getProgram K ids progMem) s fun err _ =>
      err = if P.K = -1 then rqErrEdom else if FullRank P ids then 0 else rqErrInsuffIds := by
  have hint' : intOf (ids.length - K) = .ok (ids.length - K) := intOf_eq_ok.mpr ⟨hint, rfl⟩
  unfold getProgram
  rw [ends_bind, ends_embed]
  refine ⟨_, hint', ?_⟩
  rw [ends_bind, ends_embed]
  by_cases hK : P.K = -1
  · rw [if_pos hK]
    exact ⟨_, rqInterGetMemSizes_unsupported hget hK _ _ _ _, ends_pure.mpr rfl⟩
  have hP := parametersGet_valid hget hK
  have hsizes : rqInterGetMemSizes K (ids.length - K) true true false = .ok (0,
      ⟨some (clientSizes P ids progMem 0).interWorkSize,
        some (clientSizes P ids progMem 0).interProgSize, none⟩) :=
    rqInterGetMemSizes_client hget hK hsize progMem 0 false
  let L : Layout := clientLayout hP hsize progMem (by decide : (0 - sizeofWorkMem) / 4 < 2 ^ 31)
  have hL : L.toSizes = clientSizes P ids progMem 0 := rfl
  have hR : Related L s (.empty (L.bytes s.heap)) := Sizes.Fits.related hs
  rw [if_neg hK]
  refine ⟨_, hsizes, ?_⟩
  show Ends (runNofail (· < 0) (Call.run L.toSizes (.interInit K (ids.length - K)) ::
    ids.map fun X => Call.run L.toSizes (addOne X)) >>= fun err =>
      if err < 0 then pure err else Call.run L.toSizes .interCompile) s _
  refine Ends.bind (R := fun err s' => err = 0 ∧ Related L s'
    { Codec.empty (L.bytes s.heap) with interWork := some (.ofIds hget hK ids) }) ?_ ?_
  · refine runNofail_cons_ends rfl (clientInit_ends hget hK hsize hL hR) fun s₁ hR₁ => ?_
    rw [← List.append_nil (ids.map _)]
    exact clientAdd_ends hget hK hL rfl hR₁ fun s₂ hR₂ => ends_pure.mpr ⟨rfl, hR₂⟩
  · rintro err s₁ ⟨rfl, hR₁⟩
    rw [if_neg (lt_irrefl _)]
    apply (clientCompile_ends hget hK hL hR₁).mono
    rintro err s₂ (⟨hfull, rfl, -⟩ | ⟨hfull, rfl⟩)
    · rw [if_pos hfull]
    · rw [if_neg hfull]

/-- No two blocks satisfy the equations of the IDs with the same symbols. -/
def Unambiguous (P : Parameters) (ids : List UInt32) : Prop :=
  ∀ w Y X X', Solves P ids w Y X → Solves P ids w Y X' → ∀ j < P.L, ∀ c < w, X j c = X' j c

noncomputable instance (P : Parameters) (ids : List UInt32) : Decidable (Unambiguous P ids) :=
  Classical.propDecidable _

theorem fullRank_iff_unambiguous : FullRank P ids ↔ Unambiguous P ids := by
  rw [FullRank, Table.rank_eq_iff]
  constructor
  · intro hker w Y X X' hX hX' j hj c hc
    refine sub_eq_zero.mp (hker (fun j => X j c - X' j c) (fun r hr => ?_) j hj)
    simp only [mul_sub, Finset.sum_sub_distrib]
    rw [hX r hr c hc, hX' r hr c hc, sub_self]
  · intro hunique x hx j hj
    have hzero : Solves P ids 1 (fun _ _ => 0) fun _ _ => 0 := fun r hr c hc => by simp [rhs]
    have hsolves : Solves P ids 1 (fun _ _ => 0) fun j _ => x j := fun r hr c hc => by
      simp [rhs, hx r hr]
    exact hunique 1 _ _ _ hsolves hzero j hj 0 Nat.one_pos

/-- A client gets a program exactly when symbols with its IDs can belong to one block
only.  The number of entries of the constraint matrix has to be an `int`, which it is not
for as many IDs as source symbols from 45184 on, and the memory has to be as large as it
asks for. -/
theorem getProgram_ret (hget : parametersGet K = .ok P) (hint : IsInt (ids.length - K))
    (hsize : constraintRows P ids * P.L < 2 ^ 31)
    (hs : (clientSizes P ids progMem 0).Fits s) :
    Ends (getProgram K ids progMem) s fun err _ =>
      err = if P.K = -1 then rqErrEdom else if Unambiguous P ids then 0 else rqErrInsuffIds := by
  apply (getProgram_ends hget hint hsize hs).mono
  rintro err s' rfl
  exact if_congr Iff.rfl rfl (if_congr fullRank_iff_unambiguous rfl rfl)

end Fit

/-- The memory for a program for ten IDs. -/
def programMemory : Client where
  interWork := freshMem 10
  interProg := none
  outWork := freshMem 0
  outProgMem := #[]
  heap := ⟨#[Array.replicate 877 0]⟩

theorem programMemory_fits : (clientSizes params10 sourceIds ⟨0, 0⟩ 0).Fits programMemory where
  interWork_size := rfl
  outWork_size := rfl
  outProg_size := rfl
  interProg_room := fun k hk => by
    have hk' : k < 877 := hk
    exact Heap.load_isSome.mpr (by simp [programMemory, clientSizes, Heap.blockSize, hk'])

theorem getProgram_ret_ten : Ends (getProgram 10 sourceIds ⟨0, 0⟩) programMemory fun err _ =>
    err = if params10.K = -1 then rqErrEdom
      else if Unambiguous params10 sourceIds then 0 else rqErrInsuffIds :=
  getProgram_ret parametersGet_ten (by decide) (by decide) programMemory_fits

end TvRQ
