import Jos.Library.Demands
import Jos.Kern.DebugInfo

/-! What debuginfo_eip reads after a file search that ends just below a stab: its other searches are
of one stab each, and may read stabs before the array. -/
namespace Jos

open Prog

variable {ε σ : Type} {t : SymTables ε σ} {s : σ} {f : Int → Stab} {g : Nat → Byte} {type : Byte}
  {lo hi m lfile rfile : Int} {q : Search} {addr : Word} {rounds : Nat} {name : Name}
  {info : Eipdebuginfo}

/-- The fields of a stab debuginfo_eip reads. -/
inductive Field where
  | strx
  | type
  | desc
  | value
deriving DecidableEq

/-- How the search of a single stab ends: without a match, at the stab, or just below it. -/
inductive Lone where
  | absent
  | found
  | below
deriving DecidableEq

def lone (st : Stab) (type : Byte) (addr : Word) : Lone :=
  if st.nType ≠ type then
    .absent
  else if st.nValue < addr ∨ st.nValue < addr + 1 then
    .found
  else
    .below

/-- The bounds it leaves. -/
def Lone.bounds (m : Int) : Lone → Int × Int
  | .absent => (m, m - 1)
  | .found => (m, m)
  | .below => (m - 1, m - 1)

theorem Lone.snd_le {o : Lone} : (o.bounds m).2 ≤ m := by
  cases o with
  | absent => exact Int.sub_le_self m (by decide)
  | found => exact Int.le_refl m
  | below => exact Int.sub_le_self m (by decide)

/-- The fields the search of the stab `m` reads. -/
def loneReads (f : Int → Stab) (type : Byte) (m : Int) : List (Int × Field) :=
  if (f m).nType = type then [(m, .type), (m, .value)] else [(m, .type)]

/-- The fields read from the line search on, in the stab `m`. -/
def lineReads (f : Int → Stab) (m : Int) (addr : Word) : List (Int × Field) :=
  loneReads f nSline m ++ match lone (f m) nSline addr with
    | .absent => []
    | .found => [(m, .desc)]
    | .below => [(m - 1, .desc)]

/-- The fields read from the function search on, in the stab `m`. -/
def fileReads (f : Int → Stab) (m : Int) (addr : Word) : List (Int × Field) :=
  loneReads f nFun m ++ match lone (f m) nFun addr with
    | .absent => lineReads f m addr
    | .found => [(m, .strx), (m, .value)] ++ lineReads f m (addr - (f m).nValue)
    | .below =>
      [(m - 1, .strx), (m - 1, .value)] ++ lineReads f (m - 1) (addr - (f (m - 1)).nValue)

/-- The field of stab `i` can be read, and is that of `st`. -/
def Gives (t : SymTables ε σ) (s : σ) (st : Stab) (i : Int) : Field → Prop
  | .strx => t.nStrx i s = .ok st.nStrx s
  | .type => t.nType i s = .ok st.nType s
  | .desc => t.nDesc i s = .ok st.nDesc s
  | .value => t.nValue i s = .ok st.nValue s

def Refuses (t : SymTables ε σ) (s : σ) (why : ε) (i : Int) : Field → Prop
  | .strx => t.nStrx i s = .stop why s
  | .type => t.nType i s = .stop why s
  | .desc => t.nDesc i s = .stop why s
  | .value => t.nValue i s = .stop why s

/-- Which fields can be read, and that reading any other stops for a bad reason. -/
structure Answers (t : SymTables ε σ) (s : σ) (f : Int → Stab) (met : Int × Field → Prop)
    (bad : ε → Prop) : Prop where
  gives : ∀ i φ, met (i, φ) → Gives t s (f i) i φ
  refuses : ∀ i φ, ¬ met (i, φ) → ∃ why, bad why ∧ Refuses t s why i φ

variable {met : Int × Field → Prop} {bad : ε → Prop}

theorem Answers.strx (h : Answers t s f met bad) (i : Int) :
    Demands met bad s [(i, .strx)] (t.nStrx i) (· = (f i).nStrx) :=
  demands_one (h.gives i .strx) (h.refuses i .strx)

theorem Answers.desc (h : Answers t s f met bad) (i : Int) :
    Demands met bad s [(i, .desc)] (t.nDesc i) (· = (f i).nDesc) :=
  demands_one (h.gives i .desc) (h.refuses i .desc)

theorem Answers.value (h : Answers t s f met bad) (i : Int) :
    Demands met bad s [(i, .value)] (t.nValue i) (· = (f i).nValue) :=
  demands_one (h.gives i .value) (h.refuses i .value)

/-! The search of a single stab. -/

theorem add_self_tdiv (m : Int) : (m + m).tdiv 2 = m := by
  rw [← Int.two_mul, Int.mul_tdiv_cancel_left _ (by decide)]

theorem hasType_ok (h : t.nType m s = .ok (f m).nType s) :
    t.hasType type m s = .ok (OfType f type m) s := by
  rw [SymTables.hasType, bind_ok h]
  rfl

/-- A search whose first stab cannot be read stops there. -/
theorem binsearchLoop_stop {why : ε} {u : σ} (hq : q.l ≤ q.r)
    (h : t.nType ((q.l + q.r).tdiv 2) s = .stop why u) :
    binsearchLoop t type (rounds + 1) q s = .stop why u := by
  have htest : t.hasType type ((q.l + q.r).tdiv 2) s = .stop why u := bind_stop h
  rw [binsearchLoop, if_pos hq, bind_stop (scanBack_stop (tdiv_two_mem hq).1 htest)]

theorem stabBinsearch_stop {why : ε} {u : σ} (hle : lo ≤ hi)
    (h : t.nType ((lo + hi).tdiv 2) s = .stop why u) :
    stabBinsearch t lo hi type addr s = .stop why u := by
  have hloop : binsearchLoop t type (searchRounds lo hi) ⟨lo, hi, lo, hi, false, addr⟩ s =
      .stop why u := binsearchLoop_stop hle h
  rw [stabBinsearch, bind_stop hloop]

theorem binsearchLoop_end (h : q.r < q.l) : binsearchLoop t type (rounds + 1) q s = .ok q s := by
  rw [binsearchLoop, if_neg (by omega)]
  rfl

theorem binsearchLoop_absent (h : t.nType m s = .ok (f m).nType s) (hne : (f m).nType ≠ type)
    (hl : q.l = m) (hr : q.r = m) :
    binsearchLoop t type (rounds + 2) q s = .ok { q with l := m + 1 } s := by
  have htest : t.hasType type m s = .ok false s := by
    rw [hasType_ok h, OfType, decide_eq_false hne]
  rw [binsearchLoop, hl, hr, if_pos (Int.le_refl m), add_self_tdiv, bind_ok (scanBack_single htest),
    if_neg Bool.false_ne_true, if_pos (by omega)]
  exact binsearchLoop_end (by dsimp only; omega)

/-- A round at a stab of the type compares its value with the key. -/
theorem binsearchLoop_typed (h : t.nType m s = .ok (f m).nType s) (ht : (f m).nType = type)
    (hl : q.l = m) (hr : q.r = m) :
    binsearchLoop t type (rounds + 1) q s = (do
      let value ← t.nValue m
      if value < q.addr then
        binsearchLoop t type rounds { q with anyMatches := true, regionLeft := m, l := m + 1 }
      else if q.addr < value then
        binsearchLoop t type rounds { q with anyMatches := true, regionRight := m - 1, r := m - 1 }
      else
        binsearchLoop t type rounds
          { q with anyMatches := true, regionLeft := m, l := m, addr := q.addr + 1 } :
      Prog ε σ Search) s := by
  have htest : t.hasType type m s = .ok true s := by
    rw [hasType_ok h, OfType, decide_eq_true ht]
  rw [binsearchLoop, hl, hr, if_pos (Int.le_refl m), add_self_tdiv, bind_ok (scanBack_single htest),
    if_pos rfl, if_neg (Int.lt_irrefl m)]

theorem lone_absent (h : (f m).nType ≠ type) : lone (f m) type addr = .absent := if_pos h

theorem lone_typed (h : (f m).nType = type) : lone (f m) type addr =
    if (f m).nValue < addr ∨ (f m).nValue < addr + 1 then .found else .below :=
  if_neg (not_not.mpr h)

/-- At a stab of the type the loop ends in two rounds, with its right end at the stab or below it. -/
theorem binsearchLoop_lone (h : t.nType m s = .ok (f m).nType s) (ht : (f m).nType = type)
    (hv : t.nValue m s = .ok (f m).nValue s) :
    ∃ q, binsearchLoop t type (rounds + 3) ⟨m, m, m, m, false, addr⟩ s = .ok q s ∧
      q.anyMatches = true ∧ q.regionLeft = m ∧
      (q.regionRight, q.regionRight) = (lone (f m) type addr).bounds m := by
  rw [binsearchLoop_typed h ht rfl rfl, bind_ok hv, lone_typed ht]
  by_cases hlt : (f m).nValue < addr
  · rw [if_pos hlt, if_pos (Or.inl hlt)]
    exact ⟨_, binsearchLoop_end (by dsimp only; omega), rfl, rfl, rfl⟩
  · rw [if_neg hlt]
    by_cases hgt : addr < (f m).nValue
    · have hnext : ¬ (f m).nValue < addr + 1 := by
        bv_omega
      rw [if_pos hgt, if_neg (by rintro (h' | h') <;> contradiction)]
      exact ⟨_, binsearchLoop_end (by dsimp only; omega), rfl, rfl, rfl⟩
    · -- a hit: the key goes up by one, and the second round compares again
      rw [if_neg hgt, binsearchLoop_typed h ht rfl rfl, bind_ok hv]
      dsimp only
      by_cases hlt' : (f m).nValue < addr + 1
      · rw [if_pos hlt', if_pos (Or.inr hlt')]
        exact ⟨_, binsearchLoop_end (by dsimp only; omega), rfl, rfl, rfl⟩
      · have hwrap : addr + 1 < (f m).nValue := by
          have heq : (f m).nValue = addr :=
            BitVec.le_antisymm (BitVec.not_lt.mp hgt) (BitVec.not_lt.mp hlt)
          rw [heq] at hlt' ⊢
          have hne := add_one_ne addr
          bv_omega
        rw [if_neg hlt', if_pos hwrap, if_neg (by rintro (h' | h') <;> contradiction)]
        exact ⟨_, binsearchLoop_end (by dsimp only; omega), rfl, rfl, rfl⟩

theorem stabBinsearch_lone (h : Answers t s f met bad) :
    Demands met bad s (loneReads f type m) (stabBinsearch t m m type addr)
      (· = (lone (f m) type addr).bounds m) := by
  have hrounds : searchRounds m m = 1 + 3 := by
    unfold searchRounds
    omega
  unfold loneReads
  by_cases htype : met (m, .type)
  · have hty : t.nType m s = .ok (f m).nType s := h.gives m .type htype
    by_cases ht : (f m).nType = type
    · rw [if_pos ht]
      by_cases hvalue : met (m, .value)
      · obtain ⟨q, hloop, hany, hl, hb⟩ : ∃ q : Search,
            binsearchLoop t type (1 + 3) ⟨m, m, m, m, false, addr⟩ s = .ok q s ∧ _ ∧
              q.regionLeft = m ∧ _ :=
          binsearchLoop_lone hty ht (h.gives m .value hvalue)
        refine .returns ?_ ?_ rfl
        · rintro d (- | ⟨-, - | ⟨-, hd⟩⟩)
          · exact htype
          · exact hvalue
          · cases hd
        · have hscan : scanBack (t.hasType type) (q.regionLeft + 1) q.regionRight s =
              .ok q.regionRight s := by
            have hright : q.regionRight = ((lone (f m) type addr).bounds m).2 := congrArg Prod.snd hb
            have hle : ((lone (f m) type addr).bounds m).2 ≤ m := Lone.snd_le
            exact scanBack_none (by omega)
          rw [stabBinsearch, hrounds, bind_ok hloop, hany, if_neg (not_not.mpr rfl), bind_ok hscan, ← hb]
          rfl
      · obtain ⟨why, hbad, hstop⟩ := h.refuses m .value hvalue
        refine .stops (d := (m, .value)) (by simp) hvalue hbad ?_
        have hloop : binsearchLoop t type (searchRounds m m) ⟨m, m, m, m, false, addr⟩ s =
            .stop why s := by
          rw [hrounds]
          exact (binsearchLoop_typed hty ht rfl rfl).trans (bind_stop hstop)
        rw [stabBinsearch, bind_stop hloop]
    · rw [if_neg ht, lone_absent ht]
      have hloop : binsearchLoop t type (searchRounds m m) ⟨m, m, m, m, false, addr⟩ s =
          .ok ⟨m + 1, m, m, m, false, addr⟩ s := by
        rw [hrounds]
        exact binsearchLoop_absent hty ht rfl rfl
      refine .returns (fun d hd => List.mem_singleton.mp hd ▸ htype) ?_ rfl
      rw [stabBinsearch, bind_ok hloop, if_pos Bool.false_ne_true]
      rfl
  · obtain ⟨why, hbad, hstop⟩ := h.refuses m .type htype
    refine .stops (d := (m, .type)) (by split <;> simp) htype hbad ?_
    exact stabBinsearch_stop (Int.le_refl m) (by rw [add_self_tdiv]; exact hstop)

/-! From the searches on. -/

theorem filename_below {lline : Int} (h : lline < lfile) :
    filename t lfile lline name s = .ok name s := by
  rw [filename, bind_ok (scanBack_none h), if_neg (by omega)]
  rfl

/-- A line number stab is not a file's. -/
theorem filename_sline (h : t.nType m s = .ok nSline s) : filename t m m name s = .ok name s := by
  have htest : t.stopsFile m s = .ok false s := by
    rw [SymTables.stopsFile, bind_ok h, if_neg (by decide), if_neg (by decide)]
    rfl
  rw [filename, bind_ok (scanBack_single htest), if_neg Bool.false_ne_true, if_neg (by omega)]
  rfl

theorem fnNarg_none {lfun rfun : Int} (h : rfun ≤ lfun) : fnNarg t lfun rfun s = .ok 0 s := by
  rw [fnNarg, if_neg (by omega)]
  rfl

theorem type_mem_loneReads : (m, Field.type) ∈ loneReads f type m := by
  unfold loneReads
  split
  · exact List.mem_cons_self
  · exact List.mem_cons_self

/-- The rest of debuginfo_eip where it looks for the line in one stab. -/
theorem debuginfoLine_lone (h : TablesReadable t s f g) (ha : Answers t s f met bad) {lfun rfun : Int}
    (hn : InTable t info.eipFnName) (hfile : m ≤ lfile) (hfun : rfun ≤ lfun) :
    Demands met bad s (lineReads f m addr) (debuginfoLine t lfile lfun rfun m m addr info)
      fun _ => True := by
  obtain ⟨len, hlen⟩ := namelen_returns h hn
  unfold debuginfoLine
  refine .after hlen ((stabBinsearch_lone ha).bind fun p hmet hp => ?_)
  subst hp
  cases ho : lone (f m) nSline addr with
  | absent =>
    dsimp only [Lone.bounds]
    rw [if_pos (by omega)]
    exact .of_ok rfl trivial
  | found =>
    have hty : (f m).nType = nSline := by
      by_contra hne
      rw [lone_absent hne] at ho
      cases ho
    dsimp only [Lone.bounds]
    rw [if_neg (by omega)]
    refine (ha.desc m).bind_ok fun desc _ _ => ?_
    have hname : filename t lfile m info.eipFile s = .ok info.eipFile s := by
      rcases Int.lt_or_eq_of_le hfile with hlt | rfl
      · exact filename_below hlt
      · refine filename_sline ?_
        rw [← hty]
        exact ha.gives m .type (hmet _ type_mem_loneReads)
    exact ⟨_, (bind_ok hname).trans (bind_ok (fnNarg_none hfun)), trivial⟩
  | below =>
    dsimp only [Lone.bounds]
    rw [if_neg (by omega)]
    exact (ha.desc (m - 1)).bind_ok fun desc _ _ =>
      ⟨_, (bind_ok (filename_below (by omega))).trans (bind_ok (fnNarg_none hfun)), trivial⟩

/-- The same from the function search on. -/
theorem debuginfoFile_lone (h : TablesReadable t s f g) (ha : Answers t s f met bad)
    (hfn : InTable t info.eipFnName) :
    Demands met bad s (fileReads f m addr) (debuginfoFile t m m addr info) fun _ => True := by
  unfold debuginfoFile
  refine (stabBinsearch_lone ha).bind fun p _ hp => ?_
  subst hp
  cases lone (f m) nFun addr with
  | absent =>
    dsimp only [Lone.bounds]
    rw [if_neg (by omega)]
    exact debuginfoLine_lone h ha hfn (Int.le_refl m) (by omega)
  | found =>
    dsimp only [Lone.bounds]
    rw [if_pos (Int.le_refl m)]
    refine (ha.strx m).bind fun strx _ _ => ?_
    refine (ha.value m).bind fun value _ hvalue => ?_
    subst hvalue
    exact debuginfoLine_lone h ha (inTable_name hfn _) (Int.le_refl m) (Int.le_refl m)
  | below =>
    dsimp only [Lone.bounds]
    rw [if_pos (Int.le_refl (m - 1))]
    refine (ha.strx (m - 1)).bind fun strx _ _ => ?_
    refine (ha.value (m - 1)).bind fun value _ hvalue => ?_
    subst hvalue
    exact debuginfoLine_lone h ha (inTable_name hfn _) (by omega) (Int.le_refl (m - 1))

/-- A file search that falls off stab 2 has the last stab of the array behind it. -/
theorem FallsAt.count (h : FallsAt f type addr 0 hi 2) : 2 ≤ hi := by
  rcases h with ⟨h0, -⟩ | ⟨r, hit, -⟩
  · omega
  · have := hit.mem
    omega

theorem nameless : InTable t (unknownInfo addr).eipFnName := by
  intro off h
  cases h

/-- The fields read after a file search that ends just below stab `m + 1`; with stab 0 for the file
debuginfo_eip gives up. -/
def Strays (f : Int → Stab) (hi : Int) (addr : Word) (p : Int × Field) : Prop :=
  0 ≤ hi ∧ ∃ m, m ≠ 0 ∧ FallsAt f nSo addr 0 hi (m + 1) ∧ p ∈ fileReads f m addr

/-- Where no file search ends below a stab, the function and line searches stay in the array. -/
theorem debuginfoFile_inside (h : TablesReadable t s f g) (hfn : InTable t info.eipFnName)
    (hout : Outcome f nSo addr 0 (t.count - 1) lfile rfile) (h0 : lfile ≠ 0)
    (hfall : ∀ m, m ≠ 0 → ¬ FallsAt f nSo addr 0 (t.count - 1) (m + 1)) :
    ∃ out, debuginfoFile t lfile rfile addr info s = .ok out s := by
  have hb := hout.bounds
  have hpos : lfile ≠ -1 := by
    intro hl
    refine hfall (-1) (by decide) ?_
    rw [show (-1 : Int) + 1 = 0 from rfl]
    exact (hout.falls_iff.mp hl).2
  refine debuginfoFile_returns h hfn (by omega) ?_
  rintro ⟨rfl, hfun, hline⟩
  have h1 := hfun.typed
  have h2 := hline.typed
  rcases hout.origin (by omega) with hl | hfile | ⟨i, hi1, hi2, hi3⟩
  · omega
  · exact hfall 1 (by decide) hfile
  · -- neither of the stabs 0 and 1 is a source file
    unfold OfType at h1 h2 hi3
    have hi : i = 0 ∨ i = 1 := by omega
    rcases hi with rfl | rfl
    · rw [of_decide_eq_true h2] at hi3
      exact absurd hi3 (by decide)
    · rw [of_decide_eq_true h1] at hi3
      exact absurd hi3 (by decide)

/-- debuginfo_eip over readable tables: it returns when the strays can be read. -/
theorem debuginfoTables_demands (h : TablesReadable t s f g) (ha : Answers t s f met bad)
    (hcount : 0 ≤ t.count) (addr : Word) :
    ∃ ds, (∀ p, p ∈ ds ↔ Strays f (t.count - 1) addr p) ∧
      Demands met bad s ds (debuginfoTables t addr) fun _ => True := by
  have hlast : t.char (t.strSize - 1) s = .ok (g (t.strSize.toNat - 1)) s := by
    have hpos : 0 < t.strSize.toNat := h.nonempty.2
    have hsub : (t.strSize - 1).toNat = t.strSize.toNat - 1 :=
      BitVec.toNat_sub_of_le (by rw [BitVec.le_def]; exact hpos)
    rw [← hsub]
    refine h.chars _ ?_
    rw [BitVec.lt_def, hsub]
    omega
  obtain ⟨lfile, rfile, hrun, hout⟩ : ∃ l r, stabBinsearch t 0 (t.count - 1) nSo addr s = .ok (l, r) s ∧
      Outcome f nSo addr 0 (t.count - 1) l r :=
    stabBinsearch_outcome h.stabs (by omega)
  have hb := hout.bounds
  have hstart : debuginfoTables t addr s = (if lfile = 0 then pure (-1, unknownInfo addr)
      else debuginfoFile t lfile rfile addr (unknownInfo addr) : Prog ε σ (Int × Eipdebuginfo)) s := by
    rw [debuginfoTables, if_neg (by rw [h.nonempty.1]; exact Bool.false_ne_true), bind_ok hlast,
      if_neg (not_not.mpr h.ends), bind_ok hrun]
  by_cases hfall : 0 ≤ t.count - 1 ∧ ∃ m, m ≠ 0 ∧ FallsAt f nSo addr 0 (t.count - 1) (m + 1)
  · obtain ⟨hle, m, hm, hat⟩ := hfall
    have heq : ∀ k, FallsAt f nSo addr 0 (t.count - 1) (k + 1) → lfile = k ∧ rfile = k := by
      intro k hk
      have hends := hout.falls (k + 1) hle hk
      rwa [Int.add_sub_cancel] at hends
    refine ⟨fileReads f m addr, fun p => ⟨fun hp => ⟨hle, m, hm, hat, hp⟩, ?_⟩, ?_⟩
    · rintro ⟨-, k, -, hk, hp⟩
      rwa [← (heq k hk).1, (heq m hat).1] at hp
    · obtain ⟨rfl, rfl⟩ := heq m hat
      rw [if_neg hm] at hstart
      exact (debuginfoFile_lone h ha nameless).congr hstart
  · refine ⟨[], fun p => ⟨fun hp => absurd hp List.not_mem_nil, ?_⟩, ?_⟩
    · rintro ⟨hle, m, hm, hat, -⟩
      exact absurd ⟨hle, m, hm, hat⟩ hfall
    · by_cases h0 : lfile = 0
      · rw [if_pos h0] at hstart
        exact .of_ok hstart trivial
      · rw [if_neg h0] at hstart
        obtain ⟨out, hend⟩ : ∃ out, debuginfoFile t lfile rfile addr (unknownInfo addr) s = .ok out s :=
          debuginfoFile_inside h nameless hout h0 fun m hm hat => hfall ⟨by omega, m, hm, hat⟩
        exact .of_ok (hstart.trans hend) trivial

/-! Which strays lie outside the array. -/

theorem mem_loneReads {p : Int × Field} (h : p ∈ loneReads f type m) : p.1 = m := by
  unfold loneReads at h
  split at h
  · rcases List.mem_cons.mp h with rfl | h
    · rfl
    · rw [List.mem_singleton.mp h]
  · rw [List.mem_singleton.mp h]

theorem mem_lineReads {p : Int × Field} (h : p ∈ lineReads f m addr) :
    p.1 = m ∨ (p = (m - 1, .desc) ∧ lone (f m) nSline addr = .below) := by
  rcases List.mem_append.mp h with h | h
  · exact Or.inl (mem_loneReads h)
  · cases ho : lone (f m) nSline addr with
    | absent =>
      rw [ho] at h
      exact absurd h List.not_mem_nil
    | found =>
      rw [ho] at h
      exact Or.inl (congrArg Prod.fst (List.mem_singleton.mp h))
    | below =>
      rw [ho] at h
      exact Or.inr ⟨List.mem_singleton.mp h, rfl⟩

/-- After a file search that ends below stab `m + 1`, the stabs `m` and `m - 1` are read, and stab
`m - 2` only when the other two searches end below theirs, too. -/
theorem mem_fileReads {p : Int × Field} (h : p ∈ fileReads f m addr) :
    p.1 = m ∨ p.1 = m - 1 ∨ (p = (m - 2, .desc) ∧ lone (f m) nFun addr = .below ∧
      lone (f (m - 1)) nSline (addr - (f (m - 1)).nValue) = .below) := by
  have hline : ∀ {a : Word}, p ∈ lineReads f m a → p.1 = m ∨ p.1 = m - 1 := by
    intro a ha
    rcases mem_lineReads ha with hp | ⟨rfl, -⟩
    · exact Or.inl hp
    · exact Or.inr rfl
  rcases List.mem_append.mp h with h | h
  · exact Or.inl (mem_loneReads h)
  · cases ho : lone (f m) nFun addr with
    | absent =>
      rw [ho] at h
      exact (hline h).imp_right Or.inl
    | found =>
      rw [ho] at h
      rcases List.mem_append.mp h with h | h
      · rcases List.mem_cons.mp h with rfl | h
        · exact Or.inl rfl
        · exact Or.inl (congrArg Prod.fst (List.mem_singleton.mp h))
      · exact (hline h).imp_right Or.inl
    | below =>
      rw [ho] at h
      rcases List.mem_append.mp h with h | h
      · rcases List.mem_cons.mp h with rfl | h
        · exact Or.inr (Or.inl rfl)
        · exact Or.inr (Or.inl (congrArg Prod.fst (List.mem_singleton.mp h)))
      · rcases mem_lineReads h with hp | ⟨rfl, hbelow⟩
        · exact Or.inr (Or.inl hp)
        · exact Or.inr (Or.inr ⟨by rw [Int.sub_sub]; rfl, rfl, hbelow⟩)

theorem FallsAt.mem (h : FallsAt f type addr lo hi m) (hle : lo ≤ hi) : lo ≤ m ∧ m ≤ hi := by
  rcases h with ⟨rfl, -⟩ | ⟨r, hit, -⟩
  · exact ⟨Int.le_refl m, hle⟩
  · have := hit.mem
    omega

/-- In a region of one stab, falling is ending just below it. -/
theorem Answers.falls_iff (ha : Answers t s f met bad) (h : Readable t s f m m) :
    Falls f type addr m m ↔ lone (f m) type addr = .below := by
  obtain ⟨l, r, hrun, hout⟩ : ∃ l r, stabBinsearch t m m type addr s = .ok (l, r) s ∧
      Outcome f type addr m m l r :=
    stabBinsearch_outcome h (by omega)
  have hlone : Demands met bad s (loneReads f type m) (stabBinsearch t m m type addr) _ :=
    stabBinsearch_lone ha
  rw [← hout.falls_iff]
  cases hlone with
  | stops _ _ _ hx =>
    rw [hrun] at hx
    cases hx
  | returns _ hx hq =>
    rw [hrun] at hx
    cases hx
    have hl : l = ((lone (f m) type addr).bounds m).1 := congrArg Prod.fst hq
    rw [hl]
    cases lone (f m) type addr with
    | absent => exact ⟨fun h0 => absurd h0 (by simp only [Lone.bounds]; omega), fun h0 => by cases h0⟩
    | found => exact ⟨fun h0 => absurd h0 (by simp only [Lone.bounds]; omega), fun h0 => by cases h0⟩
    | below => exact ⟨fun _ => rfl, fun _ => rfl⟩

/-- All strays lie in the array exactly when the file search does not end below stab 0, nor the three
searches in turn below stabs 2, 1 and 0. -/
theorem strays_inside_iff (ha : Answers t s f met bad) (h : Readable t s f 0 hi) :
    (∀ p, Strays f hi addr p → 0 ≤ p.1 ∧ p.1 ≤ hi) ↔
      ¬ Falls f nSo addr 0 hi ∧ ¬ FallsTwice f hi addr := by
  constructor
  · intro hall
    constructor
    · rintro ⟨hle, hat⟩
      have hmem : (-1, Field.type) ∈ fileReads f (-1) addr :=
        List.mem_append_left _ type_mem_loneReads
      have hstray : Strays f hi addr (-1, .type) := by
        refine ⟨hle, -1, by decide, ?_, hmem⟩
        rwa [show (-1 : Int) + 1 = 0 from rfl]
      exact absurd (hall _ hstray).1 (by decide)
    · rintro ⟨hat, hfun, hline⟩
      have hfun' := (ha.falls_iff fun i h1 h2 => h i (by omega) (by have := hat.count; omega)).mp hfun
      have hline' := (ha.falls_iff fun i h1 h2 => h i (by omega) (by have := hat.count; omega)).mp hline
      have hmem : (-1, Field.desc) ∈ fileReads f 1 addr := by
        unfold fileReads
        rw [hfun']
        refine List.mem_append_right _ (List.mem_append_right _ (List.mem_append_right _ ?_))
        rw [show (1 : Int) - 1 = 0 from rfl, hline']
        exact List.mem_cons_self
      have hle := hat.count
      exact absurd (hall _ ⟨by omega, 1, by decide, hat, hmem⟩).1 (by decide)
  · rintro ⟨hfall, htwice⟩ p ⟨hle, m, hm, hat, hp⟩
    have hmem := hat.mem hle
    have hneg : m ≠ -1 := by
      rintro rfl
      rw [show (-1 : Int) + 1 = 0 from rfl] at hat
      exact hfall ⟨hle, hat⟩
    rcases mem_fileReads hp with h1 | h1 | ⟨rfl, hfun, hline⟩
    · omega
    · omega
    · dsimp only
      have hone : m ≠ 1 := by
        rintro rfl
        exact htwice ⟨hat, (ha.falls_iff fun i h1 h2 => h i (by omega) (by omega)).mpr hfun,
          (ha.falls_iff fun i h1 h2 => h i (by omega) (by omega)).mpr hline⟩
      omega

/-! debuginfo_eip over tables of their own. -/

theorem access_readable (d : DebugTables) (hz : d.stabstr.getLast? = some 0) :
    TablesReadable d.access () d.entry fun i => (d.stabstr[i]?).getD 0 := by
  have hlen : 0 < d.stabstr.length := List.length_pos_of_mem (List.mem_of_getLast? hz)
  have hsize : d.access.strSize.toNat = d.stabstr.length := by
    have := d.stabstr_fits
    exact Nat.mod_eq_of_lt this
  refine ⟨fun i h1 h2 => ?_, ⟨decide_eq_false (by omega), ?_⟩, fun off hoff => ?_, ?_⟩
  · have hlt : i ≤ d.stabs.length - 1 := h2
    exact d.holds h1 (by omega)
  · rw [BitVec.lt_def, hsize]
    exact hlen
  · rw [BitVec.lt_def, hsize] at hoff
    exact bind_ok (check_true hoff ())
  · rw [hsize, ← List.getLast?_eq_getElem?, hz]
    rfl

theorem access_answers (d : DebugTables) : Answers d.access () d.entry
    (fun p => 0 ≤ p.1 ∧ p.1 ≤ d.stabs.length - 1) fun _ => True where
  gives := by
    intro i φ hi
    have hst := d.holds hi.1 (by omega)
    cases φ with
    | strx => exact hst.strx
    | type => exact hst.type
    | desc => exact hst.desc
    | value => exact hst.value
  refuses := by
    intro i φ hi
    have hcheck : (check (.badStab i) (0 ≤ i ∧ i < d.stabs.length) : Prog Fault Unit Unit) () =
        .stop (.badStab i) () := by
      rw [check_apply, if_neg fun h => hi ⟨h.1, by omega⟩]
    refine ⟨.badStab i, trivial, ?_⟩
    cases φ with
    | strx => exact bind_stop hcheck
    | type => exact bind_stop hcheck
    | desc => exact bind_stop hcheck
    | value => exact bind_stop hcheck

/-- debuginfo_eip is safe on a symbol table, whatever it holds, exactly when its file search does not
leave the array below stab 0, nor its three searches in turn below stabs 2, 1 and 0. -/
theorem debuginfoTables_safe_iff (d : DebugTables) (hz : d.stabstr.getLast? = some 0) (addr : Word) :
    (∃ out, debuginfoTables d.access addr () = .ok out ()) ↔
      ¬ Falls d.entry nSo addr 0 (d.stabs.length - 1) ∧
        ¬ FallsTwice d.entry (d.stabs.length - 1) addr := by
  have hread := access_readable d hz
  have hstabs : Readable d.access () d.entry 0 (d.stabs.length - 1) := hread.stabs
  obtain ⟨ds, hds, hrun⟩ : ∃ ds, (∀ p, p ∈ ds ↔ Strays d.entry (d.stabs.length - 1) addr p) ∧
      Demands _ _ () ds (debuginfoTables d.access addr) _ :=
    debuginfoTables_demands hread (access_answers d) (Int.natCast_nonneg _) addr
  rw [← strays_inside_iff (access_answers d) hstabs]
  cases hrun with
  | returns hmet hx _ => exact ⟨fun _ p hp => hmet p ((hds p).mpr hp), fun _ => ⟨_, hx⟩⟩
  | stops hd hnot _ hx =>
    refine ⟨?_, fun hall => absurd (hall _ ((hds _).mp hd)) hnot⟩
    rintro ⟨out, hout⟩
    rw [hx] at hout
    cases hout

/-- The last of all addresses, looked up among three stabs: the searches end below stabs 2, 1 and 0. -/
example : debuginfoTables (DebugTables.access ⟨[⟨1, nSline, 0, 0, 0x80000000⟩,
    ⟨1, nFun, 0, 0, 0xFFFFFFFF⟩, ⟨1, nSo, 0, 0, 0xFFFFFFFF⟩], [0], by decide, by decide⟩) 0xFFFFFFFF () =
    .stop (.badStab (-1)) () := rfl

/-- The stabs of a file with one function of two lines. -/
def initStabs : DebugTables where
  stabs := [⟨0, 0, 0, 6, 26⟩, ⟨1, nSo, 0, 0, 0xF0100000⟩, ⟨13, nFun, 0, 0, 0xF0100040⟩,
    ⟨0, nSline, 0, 16, 0⟩, ⟨0, nSline, 0, 23, 6⟩, ⟨0, nSo, 0, 0, 0xF01000A0⟩]
  stabstr := "\x00kern/init.c\x00i386_init:F\x00".toList.map fun c => BitVec.ofNat 8 c.toNat
  stabs_fit := by decide
  stabstr_fits := by decide

/-- An address in its second line. -/
theorem debuginfoTables_safe_initStabs : ¬ Falls initStabs.entry nSo 0xF0100046 0 5 ∧
    ¬ FallsTwice initStabs.entry 5 0xF0100046 ∧ debuginfoTables initStabs.access 0xF0100046 () =
      .ok (0, ⟨.strx 1, 23, .strx 13, 9, 0xF0100040, 0⟩) () := by
  have hrun : debuginfoTables initStabs.access 0xF0100046 () =
      .ok (0, ⟨.strx 1, 23, .strx 13, 9, 0xF0100040, 0⟩) () := rfl
  obtain ⟨hfalls, htwice⟩ := (debuginfoTables_safe_iff initStabs rfl 0xF0100046).mp ⟨_, hrun⟩
  exact ⟨hfalls, htwice, hrun⟩

/-- Both files lie behind the address looked up: stab -1 is read. -/
theorem not_debuginfoTables_safe : closeFiles.stabstr.getLast? = some 0 ∧
    debuginfoTables closeFiles.access 9 () = .stop (.badStab (-1)) () ∧
    ¬ ∃ out, debuginfoTables closeFiles.access 9 () = .ok out () := by
  have hrun : debuginfoTables closeFiles.access 9 () = .stop (.badStab (-1)) () := rfl
  refine ⟨rfl, hrun, ?_⟩
  rintro ⟨out, hout⟩
  rw [hrun] at hout
  cases hout

end Jos
