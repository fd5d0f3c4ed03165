import Jos.Library.ChainLoop
import Jos.Kern.Monitor
import Jos.Kern.UserStabs

/-! mon_backtrace (kern/monitor.c): the frames of a stack, with the symbols debuginfo_eip finds. -/
namespace Jos

open Prog

/-- Where the linker and the record at USTABDATA say the symbol tables are. -/
def stabTables (linked : UserStabData) (addr : Word) : Prog LookupStop Kernel UserStabData :=
  if ulim ≤ addr then pure linked else userStabData fun _ _ => true

def LookupStop.why : LookupStop → Stop
  | .refused _ => kernelFault
  | .kernel why => why

def unknownText : List Byte := [60, 117, 110, 107, 110, 111, 119, 110, 62]

/-- A name printed with "%.*s"; with a negative precision, "%s". -/
def cprintfName (u : UserStabData) (precision : Int) : Name → Kern (List Byte)
  | .unknown => pure (if precision < 0 then unknownText else unknownText.take precision.toNat)
  | .strx off => cprintfString precision (u.stabstr + off)

/-- The symbolic line of a frame. -/
structure FrameInfo where
  file : List Byte
  line : Int
  fnName : List Byte
  offset : Word

/-- What is printed behind the numbers of a frame, if debuginfo_eip finds the function. -/
def frameInfo (linked : UserStabData) (ptrdiff : Word → Word) (eip : Word) : Kern (Option FrameInfo) := do
  let u ← mapStop LookupStop.why (stabTables linked eip)
  let (r, info) ← mapStop LookupStop.why (debuginfoTables (userTables (fun _ _ => true) ptrdiff u) eip)
  if r = 0 then do
    let file ← cprintfName u (-1) info.eipFile
    let fnName ← cprintfName u info.eipFnNamelen info.eipFnName
    pure (some ⟨file, info.eipLine, fnName, eip - info.eipFnAddr⟩)
  else
    pure none

/-- The lines printed for a frame. -/
structure FrameLines where
  ebp : Word
  eip : Word
  args : List Word
  info : Option FrameInfo

/-- Words one after the other. -/
def loadLongs : Nat → Word → Kern (List Word)
  | 0, _ => pure []
  | n + 1, va => do
    let w ← loadLong va
    let ws ← loadLongs n (va + 4)
    pure (w :: ws)

/-- A null frame pointer ends the loop. -/
def frameAt (ebp : Word) : Option Word := if ebp = 0 then none else some ebp

/-- A round of the loop. -/
def frameVisit (linked : UserStabData) (ptrdiff : Word → Word) (bp : Word) :
    Kern (FrameLines × Option Word) := do
  let eip ← loadLong (bp + 4)
  let args ← loadLongs 5 (bp + 8)
  let info ← frameInfo linked ptrdiff eip
  let next ← loadLong bp
  pure (⟨bp, eip, args, info⟩, frameAt next)

/-- mon_backtrace, from the ebp it reads. A loop with more rounds than there are words goes on for
ever. -/
def monBacktrace (linked : UserStabData) (ptrdiff : Word → Word) (ebp : Word) : Kern (List FrameLines) :=
  chainLoop .spin (frameVisit linked ptrdiff) (2 ^ 32) (frameAt ebp)

/-- The word at an address; zero bytes where nothing is mapped. -/
def Kernel.longAt (s : Kernel) (va : Word) : Word :=
  s.peek (va + 3) ++ s.peek (va + 2) ++ s.peek (va + 1) ++ s.peek va

/-- The frame pointer saved in a frame. -/
def savedEbp (s : Kernel) (bp : Word) : Option Word := frameAt (s.longAt bp)

/-- The lines show the frame at `bp`, which is mapped. -/
structure ShowsFrame (linked : UserStabData) (ptrdiff : Word → Word) (s : Kernel) (bp : Word)
    (lines : FrameLines) : Prop where
  mapped : ∀ i < 7, LongMapped s (bp + BitVec.ofNat 32 (4 * i))
  ebp : lines.ebp = bp
  eip : lines.eip = s.longAt (bp + 4)
  args : lines.args = (List.range 5).map fun i => s.longAt (bp + BitVec.ofNat 32 (8 + 4 * i))
  info : frameInfo linked ptrdiff lines.eip s = .ok lines.info s
  /-- debuginfo_eip returns, and there is a line with the function's name when it has found it -/
  symbol : ∃ out, debuginfoEip (userTables (fun _ _ => true) ptrdiff linked) ptrdiff (fun _ _ => true)
    lines.eip s = .ok out s ∧ (lines.info.isSome ↔ out.1 = 0)

/-! debuginfo_eip only reads. -/

section observes

variable {ε σ : Type} {t : SymTables ε σ}

theorem mapStop_eq_ok {δ α : Type} {g : ε → δ} {x : Prog ε σ α} {a : α} {s u : σ} :
    mapStop g x s = .ok a u ↔ x s = .ok a u := by
  refine ⟨fun hrun => ?_, mapStop_ok⟩
  cases hx : x s with
  | ok b v =>
    rw [mapStop_ok hx] at hrun
    cases hrun
    rfl
  | stop e v =>
    have hstop : mapStop g x s = .stop (g e) v := by
      unfold mapStop
      simp only [hx]
    rw [hstop] at hrun
    cases hrun

theorem observes_mapStop {δ α : Type} {g : ε → δ} {x : Prog ε σ α} (h : Observes x) :
    Observes (mapStop g x) :=
  fun s a u hrun => h s a u (mapStop_eq_ok.mp hrun)

theorem scanBack_observes {test : Int → Prog ε σ Bool} (htest : ∀ m, Observes (test m)) (l m : Int) :
    Observes (scanBack test l m) := by
  have hloop : ∀ rounds m, Observes (scanBackFor test l rounds m) := by
    intro rounds
    induction rounds with
    | zero => exact fun m => observes_pure _
    | succ rounds ih =>
      intro m
      refine observes_ite ((htest m).bind fun b => ?_) (observes_pure _)
      cases b
      · exact ih _
      · exact observes_pure _
  exact hloop _ _

/-- The tables are read and nothing else. -/
structure SymTables.OnlyRead (t : SymTables ε σ) : Prop where
  nStrx : ∀ m, Observes (t.nStrx m)
  nType : ∀ m, Observes (t.nType m)
  nDesc : ∀ m, Observes (t.nDesc m)
  nValue : ∀ m, Observes (t.nValue m)
  char : ∀ off, Observes (t.char off)

namespace SymTables.OnlyRead

theorem hasType (h : t.OnlyRead) (type : Byte) (m : Int) : Observes (t.hasType type m) :=
  (h.nType m).bind fun _ => observes_pure _

theorem binsearchLoop (h : t.OnlyRead) (type : Byte) (rounds : Nat) (q : Search) :
    Observes (Jos.binsearchLoop t type rounds q) := by
  induction rounds generalizing q with
  | zero => exact observes_stop _
  | succ rounds ih =>
    refine observes_ite ((scanBack_observes (h.hasType type) _ _).bind fun m => ?_) (observes_pure _)
    refine observes_ite (ih _) ((h.nValue m).bind fun value => ?_)
    exact observes_ite (ih _) (observes_ite (ih _) (ih _))

theorem stabBinsearch (h : t.OnlyRead) (left right : Int) (type : Byte) (addr : Word) :
    Observes (Jos.stabBinsearch t left right type addr) := by
  refine (h.binsearchLoop _ _ _).bind fun q => observes_ite (observes_pure _) ?_
  exact (scanBack_observes (h.hasType type) _ _).bind fun _ => observes_pure _

theorem namelen (h : t.OnlyRead) (name : Name) : Observes (Jos.namelen t name) := by
  have hfind : ∀ rounds off, Observes (strfindFor t 58 rounds off) := by
    intro rounds
    induction rounds with
    | zero => exact fun off => observes_stop _
    | succ rounds ih =>
      intro off
      exact (h.char off).bind fun b => observes_ite (observes_pure _) (observes_ite (observes_pure _) (ih _))
  cases name with
  | unknown => exact observes_pure _
  | strx off => exact (hfind _ _).bind fun _ => observes_pure _

theorem filename (h : t.OnlyRead) (lfile lline : Int) (file : Name) :
    Observes (Jos.filename t lfile lline file) := by
  have hstop : ∀ m, Observes (t.stopsFile m) := by
    intro m
    refine (h.nType m).bind fun ty => observes_ite (observes_pure _) ?_
    exact observes_ite ((h.nValue m).bind fun _ => observes_pure _) (observes_pure _)
  refine (scanBack_observes hstop _ _).bind fun m => ?_
  exact observes_ite ((h.nStrx m).bind fun _ => observes_pure _) (observes_pure _)

theorem fnNarg (h : t.OnlyRead) (lfun rfun : Int) : Observes (Jos.fnNarg t lfun rfun) := by
  have hcount : ∀ rounds m, Observes (countParams t rfun rounds m) := by
    intro rounds
    induction rounds with
    | zero => exact fun m => observes_pure _
    | succ rounds ih =>
      intro m
      refine observes_ite ((h.nType m).bind fun ty => ?_) (observes_pure _)
      exact observes_ite ((ih _).bind fun _ => observes_pure _) (observes_pure _)
  exact observes_ite (hcount _ _) (observes_pure _)

theorem debuginfoLine (h : t.OnlyRead) (lfile lfun rfun lline rline : Int) (addr : Word)
    (info : Eipdebuginfo) : Observes (Jos.debuginfoLine t lfile lfun rfun lline rline addr info) := by
  refine (h.namelen _).bind fun len => (h.stabBinsearch _ _ _ _).bind fun q => ?_
  refine observes_ite (observes_pure _) ((h.nDesc _).bind fun desc => (h.filename _ _ _).bind fun file => ?_)
  exact (h.fnNarg _ _).bind fun _ => observes_pure _

theorem debuginfoTables (h : t.OnlyRead) (addr : Word) : Observes (Jos.debuginfoTables t addr) := by
  refine observes_ite (observes_pure _) ((h.char _).bind fun last => observes_ite (observes_pure _) ?_)
  refine (h.stabBinsearch _ _ _ _).bind fun file => observes_ite (observes_pure _) ?_
  refine (h.stabBinsearch _ _ _ _).bind fun fn => ?_
  refine observes_ite ?_ (h.debuginfoLine _ _ _ _ _ _ _)
  exact (h.nStrx _).bind fun strx => (h.nValue _).bind fun value => h.debuginfoLine _ _ _ _ _ _ _

end SymTables.OnlyRead

end observes

section frames

variable {linked u : UserStabData} {ptrdiff : Word → Word} {s t : Kernel} {may : Access → Word → Bool}
  {va bp ebp w eip addr : Word} {ws : List Word} {lines : List FrameLines} {line : FrameLines} {n : Nat}

/-- The lookup mon_backtrace makes is debuginfo_eip, with the kernel's tables where they are linked. -/
theorem stabTables_lookup : (stabTables linked addr >>= fun u =>
      debuginfoTables (userTables (fun _ _ => true) ptrdiff u) addr) s =
    debuginfoEip (userTables (fun _ _ => true) ptrdiff linked) ptrdiff (fun _ _ => true) addr s := by
  rw [stabTables, debuginfoEip]
  split <;> rfl

theorem lookBits_observes (a : Access) (n : Nat) (va : Word) : Observes (lookBits may a n va) := by
  induction n generalizing va with
  | zero => exact observes_pure _
  | succ n ih =>
    refine ((observes_check _ _).bind fun _ => observes_mapStop (loadByte_observes va)).bind fun low => ?_
    exact (ih _).bind fun _ => observes_pure _

theorem userTables_onlyRead : (userTables may ptrdiff u).OnlyRead :=
  ⟨fun _ => lookBits_observes _ 4 _, fun _ => lookBits_observes _ 1 _, fun _ => lookBits_observes _ 2 _,
    fun _ => lookBits_observes _ 4 _,
    fun _ => (observes_check _ _).bind fun _ => observes_mapStop (loadByte_observes _)⟩

theorem cprintfName_observes (precision : Int) (name : Name) : Observes (cprintfName u precision name) := by
  cases name with
  | unknown => exact observes_pure _
  | strx off => exact observes_ite (observes_pure _) (printString_observes _ _ _)

theorem stabTables_observes : Observes (stabTables linked addr) := by
  refine observes_ite (observes_pure _) ?_
  exact (lookBits_observes _ 4 _).bind fun _ => (lookBits_observes _ 4 _).bind fun _ =>
    (lookBits_observes _ 4 _).bind fun _ => (lookBits_observes _ 4 _).bind fun _ => observes_pure _

theorem frameInfo_observes (eip : Word) : Observes (frameInfo linked ptrdiff eip) := by
  refine (observes_mapStop stabTables_observes).bind fun u => ?_
  refine (observes_mapStop (userTables_onlyRead.debuginfoTables eip)).bind fun r => ?_
  refine observes_ite ?_ (observes_pure _)
  exact (cprintfName_observes _ _).bind fun _ => (cprintfName_observes _ _).bind fun _ => observes_pure _

/-- There is a symbolic line when debuginfo_eip has found the function. -/
theorem frameInfo_symbol {o : Option FrameInfo} (h : frameInfo linked ptrdiff eip s = .ok o t) :
    ∃ out, debuginfoEip (userTables (fun _ _ => true) ptrdiff linked) ptrdiff (fun _ _ => true) eip s =
      .ok out s ∧ (o.isSome ↔ out.1 = 0) := by
  obtain ⟨u, s₁, hu, hlook⟩ := bind_eq_ok.mp h
  obtain ⟨⟨r, info⟩, s₂, hrun, hprint⟩ := bind_eq_ok.mp hlook
  have hu := mapStop_eq_ok.mp hu
  have hrun := mapStop_eq_ok.mp hrun
  obtain rfl := stabTables_observes _ _ _ hu
  obtain rfl := userTables_onlyRead.debuginfoTables _ _ _ _ hrun
  refine ⟨(r, info), stabTables_lookup.symm.trans ((bind_ok hu).trans hrun), ?_⟩
  dsimp only at hprint
  by_cases hr : r = 0
  · rw [if_pos hr] at hprint
    obtain ⟨file, v, -, hprint⟩ := bind_eq_ok.mp hprint
    obtain ⟨name, w, -, hprint⟩ := bind_eq_ok.mp hprint
    obtain ⟨rfl, -⟩ := pure_eq_ok.mp hprint
    exact ⟨fun _ => hr, fun _ => rfl⟩
  · rw [if_neg hr] at hprint
    obtain ⟨rfl, -⟩ := pure_eq_ok.mp hprint
    exact ⟨fun hn => (by cases hn), fun h0 => absurd h0 hr⟩

theorem loadLong_eq_ok : loadLong va s = .ok w t ↔ t = s ∧ LongMapped s va ∧ w = s.longAt va := by
  have hval : ∀ w', loadLong va s = .ok w' s → w' = s.longAt va := by
    intro w' hw
    rw [loadLong] at hw
    obtain ⟨b0, s0, h0, hw⟩ := bind_eq_ok.mp hw
    obtain rfl := loadByte_observes _ _ _ _ h0
    obtain ⟨b1, s1, h1, hw⟩ := bind_eq_ok.mp hw
    obtain rfl := loadByte_observes _ _ _ _ h1
    obtain ⟨b2, s2, h2, hw⟩ := bind_eq_ok.mp hw
    obtain rfl := loadByte_observes _ _ _ _ h2
    obtain ⟨b3, s3, h3, hw⟩ := bind_eq_ok.mp hw
    obtain ⟨rfl, rfl⟩ := pure_eq_ok.mp hw
    rw [Kernel.longAt, peek_eq h0, peek_eq h1, peek_eq h2, peek_eq h3]
  constructor
  · intro hw
    obtain rfl := loadLong_observes _ _ _ _ hw
    exact ⟨rfl, loadLong_returns.mp ⟨w, hw⟩, hval w hw⟩
  · rintro ⟨rfl, hmapped, rfl⟩
    obtain ⟨w', hw⟩ := loadLong_returns.mpr hmapped
    rwa [← hval w' hw]

theorem loadLongs_eq_ok : loadLongs n va s = .ok ws t ↔
    t = s ∧ (∀ i < n, LongMapped s (va + BitVec.ofNat 32 (4 * i))) ∧
      ws = (List.range n).map fun i => s.longAt (va + BitVec.ofNat 32 (4 * i)) := by
  have hnext : ∀ (va : Word) (i : Nat),
      va + 4 + BitVec.ofNat 32 (4 * i) = va + BitVec.ofNat 32 (4 * (i + 1)) := by
    intro va i
    rw [BitVec.add_assoc, Nat.mul_add, Nat.add_comm (4 * i), BitVec.ofNat_add]
    rfl
  induction n generalizing va ws s t with
  | zero =>
    rw [loadLongs, pure_eq_ok]
    simp [eq_comm, and_comm]
  | succ n ih =>
    simp only [loadLongs, bind_eq_ok, loadLong_eq_ok, ih, pure_eq_ok, hnext]
    rw [List.range_succ_eq_map, List.map_cons, List.map_map]
    constructor
    · rintro ⟨w, u, ⟨rfl, hfirst, rfl⟩, ws', v, ⟨rfl, hrest, rfl⟩, rfl, rfl⟩
      refine ⟨rfl, fun i hi => ?_, by simp [Function.comp_def]⟩
      cases i with
      | zero => simpa using hfirst
      | succ i => exact hrest i (by omega)
    · rintro ⟨rfl, hall, rfl⟩
      refine ⟨_, _, ⟨rfl, by simpa using hall 0 (Nat.succ_pos n), rfl⟩, _, _,
        ⟨rfl, fun i hi => hall (i + 1) (by omega), rfl⟩, ?_, rfl⟩
      simp [Function.comp_def]

/-- A round returns at a frame that is mapped, and leads to the one before it. -/
theorem frameVisit_eq_ok {next : Option Word} : frameVisit linked ptrdiff bp s = .ok (line, next) t ↔
    t = s ∧ ShowsFrame linked ptrdiff s bp line ∧ next = savedEbp s bp := by
  have harg : ∀ i, bp + 8 + BitVec.ofNat 32 (4 * i) = bp + BitVec.ofNat 32 (8 + 4 * i) := by
    intro i
    rw [BitVec.add_assoc, BitVec.ofNat_add]
    rfl
  have hsplit : (∀ i < 7, LongMapped s (bp + BitVec.ofNat 32 (4 * i))) ↔ LongMapped s bp ∧
      LongMapped s (bp + 4) ∧ ∀ i < 5, LongMapped s (bp + BitVec.ofNat 32 (8 + 4 * i)) := by
    constructor
    · intro h
      refine ⟨by simpa using h 0 (by omega), h 1 (by omega), fun i hi => ?_⟩
      rw [Nat.add_comm, ← Nat.mul_add 4 i 2]
      exact h (i + 2) (by omega)
    · rintro ⟨h0, h1, h2⟩ i hi
      match i with
      | 0 => simpa using h0
      | 1 => exact h1
      | i + 2 =>
        rw [Nat.mul_add, Nat.add_comm]
        exact h2 i (by omega)
  simp only [frameVisit, bind_eq_ok, loadLong_eq_ok, loadLongs_eq_ok, pure_eq_ok, harg]
  constructor
  · rintro ⟨eip, _, ⟨rfl, heip, rfl⟩, args, _, ⟨rfl, hargs, rfl⟩, info, u, hinfo, w, _,
      ⟨rfl, hbp, rfl⟩, hrow, rfl⟩
    obtain rfl := frameInfo_observes _ _ _ _ hinfo
    cases hrow
    exact ⟨rfl, ⟨hsplit.mpr ⟨hbp, heip, hargs⟩, rfl, rfl, rfl, hinfo, frameInfo_symbol hinfo⟩, rfl⟩
  · rintro ⟨rfl, ⟨hmapped, hebp, heip, hargs, hinfo, -⟩, rfl⟩
    obtain ⟨hbp, hsecond, hrest⟩ := hsplit.mp hmapped
    obtain ⟨_, _, _, info⟩ := line
    dsimp only at hebp heip hargs hinfo
    subst hebp heip hargs
    exact ⟨_, _, ⟨rfl, hsecond, rfl⟩, _, _, ⟨rfl, hrest, rfl⟩, _, _, hinfo, _, _, ⟨rfl, hbp, rfl⟩, rfl, rfl⟩

theorem length_le_words {ps : List Word} (h : ps.Nodup) : ps.length ≤ 2 ^ 32 := by
  have hmap : (ps.map BitVec.toNat).Nodup := h.map fun _ _ => BitVec.eq_of_toNat_eq
  have hsub : ps.map BitVec.toNat ⊆ List.range (2 ^ 32) := by
    intro i hi
    obtain ⟨p, -, rfl⟩ := List.mem_map.mp hi
    exact List.mem_range.mpr p.isLt
  have hlen := (hmap.subperm hsub).length_le
  rwa [List.length_map, List.length_range] at hlen

/-- mon_backtrace returns exactly when the saved frame pointers lead to a null one through frames that
are mapped and whose symbols can be looked up. Then it shows these frames, the innermost first, and
changes nothing. -/
theorem monBacktrace_eq_ok : monBacktrace linked ptrdiff ebp s = .ok lines t ↔
    t = s ∧ ∃ bps, Chain (savedEbp s) (frameAt ebp) bps ∧
      List.Forall₂ (ShowsFrame linked ptrdiff s) bps lines := by
  rw [monBacktrace]
  exact chainLoop_eq_ok (fun _ _ _ _ => frameVisit_eq_ok) fun _ => length_le_words

end frames

end Jos
