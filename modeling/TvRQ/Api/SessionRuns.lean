/-
# What holds over whole sessions

Three consequences of the refinement.  Every session of allowed calls goes as
the specification says.  Compiling that has succeeded once does not run out of
IDs later.  A block stays in memory through all calls that are not told to write
there, so symbols may be sent between two clients that each do other things in
between.
-/

import TvRQ.Api.SessionRefinement

namespace TvRQ

open Imperative Heap Finset

variable {L : Layout} {s : Client} {a b e : Codec} {c : Call} {r : ℤ} {P : Parameters}

/-! ## Sessions -/

/-- Memory of the right size, with anything in it. -/
structure Sizes.Fits (z : Sizes) (s : Client) : Prop where
  interWork_size : s.interWork.ESIs.size = z.interCap
  outWork_size : s.outWork.ESIs.size = z.outCap
  outProg_size : s.outProgMem.size = z.outProgSize / 4
  interProg_room : ∀ k < z.interProgSize, (s.heap.load (z.interProgMem.add k)).isSome

/-- Memory with nothing in it but symbols. -/
def Codec.empty (bytes : Bytes) : Codec := ⟨none, none, none, none, bytes⟩

theorem Sizes.Fits.related (hs : L.toSizes.Fits s) : Related L s (.empty (L.bytes s.heap)) where
  interWork_size := hs.interWork_size
  outWork_size := hs.outWork_size
  outProg_size := hs.outProg_size
  interProg_room := hs.interProg_room
  interWork := fun _ hq => by cases hq
  interProg := fun _ hq => by cases hq
  outWork := fun _ hq => by cases hq
  outProg := fun _ hq => by cases hq
  bytes := rfl

/-- A call other than an initialisation leaves the work memory alone or adds IDs. -/
theorem Codec.Step.interWork_cases (hstep : Codec.Step L a c r b)
    (hc : ∀ nK x, c ≠ .interInit nK x) : b.interWork = a.interWork ∨
      ∃ nBeg nAdd q, c = .interAddIds nBeg nAdd ∧ a.interWork = some q ∧
        b.interWork = some (q.add L.interCap nBeg nAdd) := by
  cases hstep
  case interInit_noroom => exact absurd rfl (hc _ _)
  case interInit_unsupported => exact absurd rfl (hc _ _)
  case interInit_small => exact absurd rfl (hc _ _)
  case interInit => exact absurd rfl (hc _ _)
  case interAddIds hwork => exact Or.inr ⟨_, _, _, rfl, hwork, rfl⟩
  all_goals exact Or.inl rfl

/-- The IDs that a call asks for. -/
def Call.requested : Call → List UInt32
  | .interAddIds nBeg nAdd => TvRQ.requested nBeg nAdd
  | _ => []

/-- The request in the work memory is for `K` source symbols, with IDs from a list. -/
def Codec.Asked (K : ℤ) (ids : List UInt32) (a : Codec) : Prop :=
  ∃ q, a.interWork = some q ∧ q.params.K = K ∧ ∀ X ∈ q.ids, X ∈ ids

theorem Request.mem_of_mem_add {q : Request} {cap : ℕ} {nBeg nAdd : ℤ} {X : UInt32}
    (hX : X ∈ (q.add cap nBeg nAdd).ids) : X ∈ q.ids ∨ X ∈ TvRQ.requested nBeg nAdd :=
  List.mem_append.mp (List.mem_of_mem_take hX)

theorem Codec.Step.asked {K : ℤ} {ids : List UInt32} (hstep : Codec.Step L a c r b)
    (hc : ∀ nK x, c ≠ .interInit nK x) (hids : ∀ X ∈ c.requested, X ∈ ids)
    (ha : a.Asked K ids) : b.Asked K ids := by
  obtain ⟨q, hq, hK, hmem⟩ := ha
  rcases hstep.interWork_cases hc with hsame | ⟨nBeg, nAdd, q', rfl, hwork, hadd⟩
  · exact ⟨q, hsame.trans hq, hK, hmem⟩
  · obtain rfl := Option.some.inj (hwork.symm.trans hq)
    refine ⟨_, hadd, hK, fun X hX => ?_⟩
    rcases Request.mem_of_mem_add hX with hX | hX
    · exact hmem X hX
    · exact hids X hX

/-- The call is not told to write to the cells. -/
def Call.Avoids (cells : Set Ptr) : Call → Prop
  | .interExecute _ _ _ interMem interSize => Disjoint (bytesFrom interMem interSize) cells
  | .outExecute _ _ outMem outSize => Disjoint (bytesFrom outMem outSize) cells
  | .write p _ => p ∉ cells
  | _ => True

theorem bytesFrom_mono {p : Ptr} {n m : ℕ} (h : n ≤ m) : bytesFrom p n ⊆ bytesFrom p m := by
  rintro q ⟨k, hk, rfl⟩
  exact ⟨k, hk.trans_le h, rfl⟩

/-- Every call writes to what it is told to and nothing else. -/
theorem Codec.Step.bytes_eq (hstep : Codec.Step L a c r b) {cells : Set Ptr}
    (hc : c.Avoids cells) : ∀ p ∈ cells, b.bytes p = a.bytes p := by
  intro p hp
  cases hstep
  case interExecute hsize _ _ hbytes =>
    exact hbytes.frame p fun hmem =>
      Set.disjoint_left.mp hc (bytesFrom_mono hsize hmem) hp
  case outExecute hsize _ hbytes =>
    exact hbytes.frame p fun hmem =>
      Set.disjoint_left.mp hc (bytesFrom_mono hsize hmem) hp
  case write =>
    refine Function.update_of_ne ?_ _ _
    rintro rfl
    exact hc hp
  all_goals rfl

theorem steps_bytes_eq {cs : List Call} {rs : List ℤ} (hsteps : Steps (Codec.Step L) a cs rs b)
    {cells : Set Ptr} (hcs : ∀ c ∈ cs, c.Avoids cells) : ∀ p ∈ cells, b.bytes p = a.bytes p := by
  refine hsteps.keeps (I := fun e => ∀ p ∈ cells, e.bytes p = a.bytes p)
    (fun c hc e r e' he hstep p hp => ?_) fun _ _ => rfl
  rw [hstep.bytes_eq (hcs c hc) p hp, he p hp]

theorem Bytes.Replaced.isSome {m m' : Bytes} {p q : Ptr} {n w : ℕ} {A : Table GF256}
    (h : m.Replaced p n w A m') (hq : (m q).isSome) : (m' q).isSome := by
  by_cases hmem : q ∈ bytesFrom p (n * w)
  · obtain ⟨k, hk, rfl⟩ := hmem
    have hpos : 0 < w := Nat.pos_of_mul_pos_left (Nat.zero_lt_of_lt hk)
    have hrow : k / w < n := Nat.div_lt_of_lt_mul (by rwa [Nat.mul_comm])
    have hcell := h.shows (k / w) hrow (k % w) (Nat.mod_lt k hpos)
    rw [Nat.div_add_mod'] at hcell
    rw [hcell]
    rfl
  · rw [h.frame q hmem]
    exact hq

/-- No call takes memory away. -/
theorem Codec.Step.isSome (hstep : Codec.Step L a c r b) {p : Ptr} (hp : (a.bytes p).isSome) :
    (b.bytes p).isSome := by
  cases hstep
  case interExecute hbytes => exact hbytes.isSome hp
  case outExecute hbytes => exact hbytes.isSome hp
  case write q v =>
    show (Function.update a.bytes q (some v) p).isSome
    by_cases heq : p = q
    · rw [heq, Function.update_self]
      rfl
    · rwa [Function.update_of_ne heq]
  all_goals exact hp

theorem Bytes.Shows.congr {m m' : Bytes} {p : Ptr} {n w : ℕ} {A : Table GF256}
    (hA : m.Shows p n w A) (heq : ∀ q ∈ bytesFrom p (n * w), m' q = m q) : m'.Shows p n w A := by
  intro r hr c hc
  have hcell : p.add (r * w + c) ∈ (M256v.make n w p).cells := ⟨r, hr, c, hc, rfl⟩
  rw [heq _ (cells_make_subset le_rfl hcell)]
  exact hA r hr c hc

/-- A place shows one table. -/
theorem Bytes.Shows.unique {m : Bytes} {p : Ptr} {n w : ℕ} {A B : Table GF256}
    (hA : m.Shows p n w A) (hB : m.Shows p n w B) : ∀ r < n, ∀ c < w, A r c = B r c := by
  intro r hr c hc
  have heq := (hA r hr c hc).symm.trans (hB r hr c hc)
  exact GF256.ext_iff'.mpr (Option.some.inj heq)

theorem Layout.holds_of_shows {h : Heap UInt8} {p : Ptr} {n w : ℕ} {A : Table GF256}
    (hA : (L.bytes h).Shows p n w A) : (M256v.make n w p).Holds h A := by
  intro r hr c hc
  have hrc := hA r hr c hc
  rwa [bytes_of_ne (blk_ne_of_isSome (by rw [hrc]; rfl))] at hrc

/-- Equations depend on the entries of the symbols only. -/
theorem Solves.congr {ids : List UInt32} {w : ℕ} {Y Y' X : Table GF256}
    (hX : Solves P ids w Y X) (hY : ∀ r < ids.length, ∀ c < w, Y r c = Y' r c) :
    Solves P ids w Y' X := by
  intro r hr c hc
  rw [hX r hr c hc]
  unfold rhs
  split_ifs with hid
  · exact hY r hid c hc
  · rfl

theorem Determines.congr {ids : List UInt32} {w : ℕ} {Y Y' C : Table GF256}
    (hC : Determines P ids w Y C) (hY : ∀ r < ids.length, ∀ c < w, Y r c = Y' r c) :
    Determines P ids w Y' C where
  unique := fun X hX => hC.unique X (hX.congr fun r hr c hc => (hY r hr c hc).symm)
  solves := fun hsquare => (hC.solves hsquare).congr hY

/-! ## Symbols sent from client to client -/

/-- The buffers of a client that executes a program, makes other calls, and
executes the program for the symbols that are asked for. -/
structure Transfer where
  symSize : ℕ
  inMem : Ptr
  inSize : ℕ
  interMem : Ptr
  interSize : ℕ
  between : List Call
  outMem : Ptr
  outSize : ℕ

namespace Transfer

def solve (x : Transfer) : Call :=
  .interExecute x.symSize x.inMem x.inSize x.interMem x.interSize

def emit (x : Transfer) : Call := .outExecute x.symSize x.interMem x.outMem x.outSize

def calls (x : Transfer) : List Call := x.solve :: (x.between ++ [x.emit])

/-- The transfer leads from the symbols of one list of IDs to those of another
one.  The calls in between may be any that do not write to the block and end
with the program for the other IDs in memory. -/
structure Fits (x : Transfer) (L : Layout) (P : Parameters) (E F : List UInt32) (s : Client)
    (a : Codec) : Prop where
  related : Related L s a
  interProg : ∃ q, a.interProg = some q ∧ q.params = P ∧ q.ids = E
  permitted : Permitted (Codec.Step L) (Codec.Allowed L) a x.calls
  avoids : ∀ c ∈ x.between, c.Avoids (bytesFrom x.interMem (P.L * x.symSize))
  outProg : ∀ r rs b e, Codec.Step L a x.solve r b → Steps (Codec.Step L) b x.between rs e →
    ∃ q, e.outProg = some q ∧ q.params = P ∧ q.ids = F
  interSize_ge : P.L * x.symSize ≤ x.interSize
  outSize_ge : F.length * x.symSize ≤ x.outSize

variable {x : Transfer} {E F : List UInt32} {Y : Table GF256}

/-- The symbols that go in lie where the client may read them. -/
theorem Fits.shows (hx : x.Fits L P E F s a)
    (hY : (M256v.make E.length x.symSize x.inMem).Holds s.heap Y) :
    a.bytes.Shows x.inMem E.length x.symSize Y := by
  obtain ⟨q, hprog, rfl, rfl⟩ := hx.interProg
  obtain ⟨-, q', hprog', hbuf⟩ := hx.permitted.1
  obtain rfl := Option.some.inj (hprog'.symm.trans hprog)
  have hin := (hbuf hx.interSize_ge).src_allocated
  rw [hx.related.bytes] at hin ⊢
  exact (Layout.shows_iff_holds (Layout.blk_ne_of_allocated hin)).mpr hY

/-- Solving, and what is left of the block after the calls that come next. -/
theorem Fits.solve_step (hx : x.Fits L P E F s a)
    (hY : (M256v.make E.length x.symSize x.inMem).Holds s.heap Y)
    (hstep : Codec.Step L a x.solve r b) {rs : List ℤ}
    (hsteps : Steps (Codec.Step L) b x.between rs e) :
    r = 0 ∧ ∃ C, Determines P E x.symSize Y C ∧ e.bytes.Shows x.interMem P.L x.symSize C := by
  have hshows := hx.shows hY
  obtain ⟨q, hprog, rfl, rfl⟩ := hx.interProg
  cases hstep with
  | interExecute_small hprog' hsize =>
      obtain rfl := Option.some.inj (hprog'.symm.trans hprog)
      exact absurd hx.interSize_ge (not_le.mpr hsize)
  | @interExecute _ _ _ _ _ _ Y' C _ hprog' hsize hY' hC hbytes =>
      obtain rfl := Option.some.inj (hprog'.symm.trans hprog)
      exact ⟨rfl, C, hC.congr (hY'.unique hshows),
        hbytes.shows.congr (steps_bytes_eq hsteps hx.avoids)⟩

/-- Whatever the calls in between are, the symbols that come out are those of
the block that was solved for. -/
theorem Fits.ends (hx : x.Fits L P E F s a)
    (hY : (M256v.make E.length x.symSize x.inMem).Holds s.heap Y) :
    Ends (runAll (Call.run L.toSizes) x.calls) s fun rets s' =>
      rets.head? = some 0 ∧ rets.getLast? = some 0 ∧ ∃ C, Determines P E x.symSize Y C ∧
        (M256v.make F.length x.symSize x.outMem).Holds s'.heap (symbolTable P F C) := by
  apply (Refines.runAll_ends (call_refines L) hx.related hx.permitted).mono
  rintro rets s' ⟨e, hsteps, hR⟩
  cases hsteps with
  | cons hsolve hrest =>
      obtain ⟨rs, rs', d, rfl, hbetween, hlast⟩ := hrest.append_inv
      obtain ⟨rfl, C, hC, hshows⟩ := hx.solve_step hY hsolve hbetween
      obtain ⟨q, hprog, rfl, rfl⟩ := hx.outProg _ _ _ _ hsolve hbetween
      cases hlast with
      | cons hemit hnil =>
          cases hnil
          cases hemit with
          | outExecute_small hprog' hsize =>
              obtain rfl := Option.some.inj (hprog'.symm.trans hprog)
              exact absurd hx.outSize_ge (not_le.mpr hsize)
          | @outExecute _ _ _ _ bytes C' _ hprog' hsize hC' hbytes =>
              obtain rfl := Option.some.inj (hprog'.symm.trans hprog)
              refine ⟨rfl, List.getLast?_concat (l := 0 :: rs), C, hC, ?_⟩
              have hout := hbytes.shows
              have hsame := hC'.unique hshows
              rw [show bytes = L.bytes s'.heap from hR.bytes] at hout
              refine (Layout.holds_of_shows hout).congr fun i _ c hc => ?_
              exact symbolTable_congr fun j hj => hsame j hj c hc

end Transfer

theorem disjoint_bytesFrom {p q : Ptr} {n m : ℕ} (hne : p.blk ≠ q.blk) :
    Disjoint (bytesFrom p n) (bytesFrom q m) := by
  rw [Set.disjoint_left]
  rintro r ⟨k, _, rfl⟩ ⟨k', _, heq⟩
  exact hne (Ptr.ext_iff'.mp heq).1

end TvRQ
