import Jos.Kern.StabFinds

/-! debuginfo_eip on symbol tables with any contents. -/
namespace Jos

open Prog

variable {ε σ : Type} {t : SymTables ε σ} {s : σ} {f : Int → Stab} {type : Byte}
  {lo hi m r left right : Int} {q q' : Search} {addr b : Word}

/-- Where the loop can be, whatever order the stabs are in: before the first hit, or behind a hit of
stab `m`, which is the first or has a stab of the type before it. -/
inductive Course (f : Int → Stab) (type : Byte) (lo hi : Int) (addr : Word) (q : Search) : Prop
  | first (h : Bracket f type addr lo hi false q)
  | second {m r : Int} (hit : FirstHit f type addr lo hi m r) (h : Bracket f type (addr + 1) m r true q)
  | later {m₀ r₀ m' r' m r : Int} {b : Word} (hit : FirstHit f type addr lo hi m₀ r₀)
    (hit' : FirstHit f type (addr + 1) m₀ r₀ m' r') (hlt : m₀ < m) (hle : m ≤ r) (hr : r ≤ hi)
    (ht : OfType f type m = true) (hv : (f m).nValue + 1 = b) (h : Bracket f type b m r true q)

theorem add_one_ne (a : Word) : a + 1 ≠ a := by
  intro h
  have hone := congrArg BitVec.toNat h
  have hlt := a.isLt
  rw [BitVec.toNat_add, show (1 : Word).toNat = 1 from rfl] at hone
  omega

theorem Course.step (h : Course f type lo hi addr q) (hq : q.l ≤ q.r) (hs : SearchStep f type q q') :
    Course f type lo hi addr q' := by
  cases h with
  | first h =>
    rcases h.step hq hs with h' | ⟨m, hit, rfl⟩
    · exact .first h'
    · have hmem := hit.mem
      exact .second hit (bracket_start (by omega))
  | @second m r hit h =>
    have hmem := hit.mem
    rcases h.step hq hs with h' | ⟨m', hit', rfl⟩
    · exact .second hit h'
    · obtain ⟨h1, h2, h3, ht, hv⟩ := hit'.mem
      have hne : m ≠ m' := by
        rintro rfl
        rw [hmem.2.2.2.2] at hv
        exact add_one_ne addr hv.symm
      exact .later hit hit' (by omega) h2 (by omega) ht (by rw [hv]) (bracket_start (by omega))
  | @later m₀ r₀ m' r' m r b hit hit' hlt hle hr ht hv h =>
    rcases h.step hq hs with h' | ⟨m₁, hit₁, rfl⟩
    · exact .later hit hit' hlt hle hr ht hv h'
    · obtain ⟨h1, h2, h3, ht₁, hv₁⟩ := hit₁.mem
      exact .later hit hit' (by omega) h2 (by omega) ht₁ (by rw [hv₁]) (bracket_start (by omega))

/-- The stab the current bracket starts at, with its bounds and its key. -/
theorem Course.bracket (h : Course f type lo hi addr q) :
    ∃ l₀ r₀ any₀ b, lo ≤ l₀ ∧ r₀ ≤ hi ∧ Bracket f type b l₀ r₀ any₀ q := by
  cases h with
  | first h => exact ⟨_, _, _, _, Int.le_refl lo, Int.le_refl hi, h⟩
  | second hit h =>
    have hmem := hit.mem
    exact ⟨_, _, _, _, by omega, by omega, h⟩
  | later hit _ hlt _ hr _ _ h =>
    have hmem := hit.mem
    exact ⟨_, _, _, _, by omega, hr, h⟩

theorem Course.range (h : Course f type lo hi addr q) :
    lo ≤ q.l ∧ q.r ≤ hi ∧ lo ≤ q.regionLeft + 1 ∧ q.regionRight ≤ hi := by
  obtain ⟨l₀, r₀, any₀, b, hl, hr, hb⟩ := h.bracket
  have hreg := hb.region
  have hright := hb.right
  rcases hb.left with ⟨hleft, -⟩ | hbelow
  · omega
  · have := hbelow.ge
    omega

/-! How a search leaves its region. -/

/-- The search ends just below stab `m`: it has found only larger stabs down to `m`, the first of the
region, or it has hit `m` with the last address for a key. -/
def FallsAt (f : Int → Stab) (type : Byte) (addr : Word) (lo hi m : Int) : Prop :=
  (m = lo ∧ RunsOut f type addr lo hi lo (lo - 1)) ∨
    ∃ r, FirstHit f type addr lo hi m r ∧ RunsOut f type (addr + 1) m r m (m - 1)

/-- The search leaves its region at the lower end. -/
def Falls (f : Int → Stab) (type : Byte) (addr : Word) (lo hi : Int) : Prop :=
  lo ≤ hi ∧ FallsAt f type addr lo hi lo

/-- A bracket that ends at its own start leaves both bounds before it. -/
theorem Bracket.falls {l₀ r₀ : Int} {any₀ : Bool} (h : Bracket f type b l₀ r₀ any₀ q)
    (hle : l₀ ≤ r₀) (hl : q.l = l₀) (hr : q.r = l₀ - 1) (hf : Found f type q left right) :
    left = l₀ - 1 ∧ right = l₀ - 1 := by
  obtain ⟨hany, -⟩ := h.next (by omega)
  have hright := h.right
  have hleft : q.regionLeft = l₀ := by
    rcases h.left with ⟨hleft, -⟩ | hbelow
    · exact hleft
    · have := hbelow.ge
      have := hbelow.lt
      omega
  have hq := hf.eq_right hany (by omega)
  omega

theorem Bracket.runs_out {l₀ r₀ : Int} {any₀ : Bool} (h : Bracket f type b l₀ r₀ any₀ q)
    (hend : q.r < q.l) : RunsOut f type b l₀ r₀ q.l q.r :=
  (h.runsOut _ _).mpr (.done hend)

theorem Bracket.ends_at {l₀ r₀ l' r' : Int} {any₀ : Bool} (h : Bracket f type b l₀ r₀ any₀ q)
    (hend : q.r < q.l) (hrun : RunsOut f type b l₀ r₀ l' r') : q.l = l' ∧ q.r = r' := by
  have heq := ((h.runsOut _ _).mp hrun).eq hend
  omega

theorem FallsAt.found (h : FallsAt f type addr lo hi m) (hle : lo ≤ hi)
    (hc : Course f type lo hi addr q) (hend : q.r < q.l) (hf : Found f type q left right) :
    left = m - 1 ∧ right = m - 1 := by
  rcases h with ⟨rfl, hrun⟩ | ⟨r, hit, hrun⟩
  · cases hc with
    | first hb =>
      obtain ⟨hl, hr⟩ := hb.ends_at hend hrun
      exact hb.falls hle hl hr hf
    | second hit _ => exact absurd hit hrun.no_hit
    | later hit _ _ _ _ _ _ _ => exact absurd hit hrun.no_hit
  · cases hc with
    | first hb => exact absurd hit (hb.no_hit hend)
    | second hit' hb =>
      have hmem := hit.mem
      obtain ⟨rfl, rfl⟩ := hit.unique hit'
      obtain ⟨hl, hr⟩ := hb.ends_at hend hrun
      exact hb.falls (by omega) hl hr hf
    | later hit₀ hit' _ _ _ _ _ _ =>
      obtain ⟨rfl, rfl⟩ := hit.unique hit₀
      exact absurd hit' hrun.no_hit

/-- How the bounds come out of a bracket: nothing found, fallen below its start, or a stab found. -/
theorem Bracket.outcome {l₀ r₀ : Int} {any₀ : Bool} (h : Bracket f type b l₀ r₀ any₀ q)
    (hstart : any₀ = true → OfType f type l₀ = true ∧ l₀ ≤ r₀) (hend : q.r < q.l)
    (hf : Found f type q left right) :
    (any₀ = false ∧ left = l₀ ∧ right = l₀ - 1) ∨
    (q.l = l₀ ∧ q.r = l₀ - 1 ∧ left = l₀ - 1 ∧ right = l₀ - 1 ∧ l₀ ≤ r₀) ∨
    (l₀ ≤ left ∧ left ≤ right ∧ right ≤ r₀ ∧ (OfType f type left = true ∨ (any₀ = false ∧ left = l₀))) := by
  have hreg := h.region
  have hright := h.right
  cases hany : q.anyMatches with
  | false =>
    have hany₀ : any₀ = false := by
      rw [← Bool.not_eq_true]
      intro h0
      rw [h.stays h0] at hany
      cases hany
    rcases h.left with ⟨hleft, -⟩ | hbelow
    · cases hf with
      | none _ => exact Or.inl ⟨hany₀, hleft, by omega⟩
      | some h0 _ =>
        rw [hany] at h0
        cases h0
    · rw [hbelow.any] at hany
      cases hany
  | true =>
    rcases h.left with ⟨hleft, hnone⟩ | hbelow
    · by_cases hr : q.r < l₀
      · have hle : l₀ ≤ r₀ := by
          rcases h.any hany with h0 | hbelow | hlt
          · exact (hstart h0).2
          · have := hbelow.ge
            have := hbelow.lt
            omega
          · omega
        obtain ⟨h1, h2⟩ := h.falls hle (by omega) (by omega) hf
        exact Or.inr (Or.inl ⟨by omega, by omega, h1, h2, hle⟩)
      · have hany₀ : any₀ = false := by
          rw [← Bool.not_eq_true]
          intro h0
          have htyped := (hstart h0).1
          rw [hnone l₀ (Int.le_refl l₀) (by omega)] at htyped
          cases htyped
        obtain ⟨h1, h2⟩ := hf.eq_left hany (by omega) fun i hi1 hi2 => hnone i (by omega) (by omega)
        exact Or.inr (Or.inr ⟨by omega, by omega, by omega, Or.inr ⟨hany₀, by omega⟩⟩)
    · have hge := hbelow.ge
      have hlt := hbelow.lt
      obtain ⟨h1, h2⟩ := hf.eq_left hany (by omega) fun i hi1 hi2 => hbelow.last i hi1 (by omega)
      exact Or.inr (Or.inr ⟨by omega, by omega, by omega, Or.inl (by rw [h1]; exact hbelow.typed)⟩)

/-- What a search can leave: the empty region, or bounds in its region, behind some stab of the type,
at the start or just below a stab where the search falls. -/
structure Outcome (f : Int → Stab) (type : Byte) (addr : Word) (lo hi left right : Int) : Prop where
  bounds : (left = lo ∧ right = lo - 1) ∨ (lo - 1 ≤ left ∧ left ≤ right ∧ right ≤ hi ∧ lo ≤ hi)
  origin : left ≤ right → left = lo ∨ FallsAt f type addr lo hi (left + 1) ∨
    ∃ i, lo ≤ i ∧ i ≤ left ∧ OfType f type i = true
  falls : ∀ m, lo ≤ hi → FallsAt f type addr lo hi m → left = m - 1 ∧ right = m - 1

theorem Course.outcome (h : Course f type lo hi addr q) (hend : q.r < q.l)
    (hf : Found f type q left right) : Outcome f type addr lo hi left right := by
  have hfalls : ∀ m, lo ≤ hi → FallsAt f type addr lo hi m → left = m - 1 ∧ right = m - 1 :=
    fun m hle hm => hm.found hle h hend hf
  cases h with
  | first h =>
    rcases h.outcome (fun h0 => by cases h0) hend hf with
      ⟨-, h1, h2⟩ | ⟨hl, hr, h1, h2, hle⟩ | ⟨h1, h2, h3, ht⟩
    · exact ⟨Or.inl ⟨h1, h2⟩, fun _ => by omega, hfalls⟩
    · have hrun := h.runs_out hend
      rw [hl, hr] at hrun
      exact ⟨Or.inr ⟨by omega, by omega, by omega, hle⟩,
        fun _ => Or.inr (Or.inl (Or.inl ⟨by omega, hrun⟩)), hfalls⟩
    · refine ⟨Or.inr ⟨by omega, h2, h3, by omega⟩, fun _ => ?_, hfalls⟩
      rcases ht with ht | ⟨-, hl⟩
      · exact Or.inr (Or.inr ⟨left, h1, Int.le_refl _, ht⟩)
      · exact Or.inl hl
  | @second m r hit h =>
    obtain ⟨hm1, hm2, hm3, htm, -⟩ := hit.mem
    rcases h.outcome (fun _ => ⟨htm, hm2⟩) hend hf with
      ⟨h0, -⟩ | ⟨hl, hr, h1, h2, hle⟩ | ⟨h1, h2, h3, -⟩
    · cases h0
    · have hrun := h.runs_out hend
      rw [hl, hr] at hrun
      refine ⟨Or.inr ⟨by omega, by omega, by omega, by omega⟩, fun _ => ?_, hfalls⟩
      rw [h1, Int.sub_add_cancel]
      exact Or.inr (Or.inl (Or.inr ⟨r, hit, hrun⟩))
    · exact ⟨Or.inr ⟨by omega, h2, by omega, by omega⟩,
        fun _ => Or.inr (Or.inr ⟨m, hm1, h1, htm⟩), hfalls⟩
  | @later m₀ r₀ m' r' m r b hit hit' hlt hle hr ht hv h =>
    obtain ⟨hm1, hm2, hm3, htm, -⟩ := hit.mem
    have hbounds : lo ≤ left ∧ left ≤ right ∧ right ≤ hi ∧ m₀ ≤ left := by
      rcases h.outcome (fun _ => ⟨ht, hle⟩) hend hf with
        ⟨h0, -⟩ | ⟨-, -, h1, h2, -⟩ | ⟨h1, h2, h3, -⟩
      · cases h0
      · omega
      · omega
    exact ⟨Or.inr ⟨by omega, by omega, by omega, by omega⟩,
      fun _ => Or.inr (Or.inr ⟨m₀, hm1, hbounds.2.2.2, htm⟩), hfalls⟩

theorem stabBinsearch_outcome (h : Readable t s f lo hi) (hle : lo ≤ hi + 1) :
    ∃ left right, stabBinsearch t lo hi type addr s = .ok (left, right) s ∧
      Outcome f type addr lo hi left right := by
  obtain ⟨q, left, right, hrun, hcourse, hend, hf⟩ : ∃ q left right, _ ∧ Course f type lo hi addr q ∧ _ :=
    stabBinsearch_rule h (fun q h _ => ⟨h.range.1, h.range.2.1⟩) (fun q q' h hq hs => h.step hq hs)
      (fun q h => ⟨h.range.2.2.1, h.range.2.2.2⟩) (.first (bracket_start hle))
  exact ⟨left, right, hrun, hcourse.outcome hend hf⟩

theorem Outcome.falls_iff (h : Outcome f type addr lo hi left right) :
    left = lo - 1 ↔ Falls f type addr lo hi := by
  constructor
  · intro hl
    rcases h.bounds with ⟨h1, -⟩ | ⟨-, h2, h3, hle⟩
    · omega
    · refine ⟨hle, ?_⟩
      rcases h.origin h2 with h0 | hfall | ⟨i, h1, h2, -⟩
      · omega
      · rwa [hl, Int.sub_add_cancel] at hfall
      · omega
  · intro hfall
    exact (h.falls lo hfall.1 hfall.2).1

theorem RunsOut.le {l r l' r' : Int} (h : RunsOut f type addr l r l' r') : r' ≤ r := by
  induction h with
  | done _ => exact Int.le_refl _
  | step hlr hs _ ih => exact Int.le_trans ih (hs.mem hlr).2

/-- A search that runs out below the right end has stopped at a stab of the type. -/
theorem RunsOut.next {l r l' r' : Int} (h : RunsOut f type addr l r l' r') (hlt : r' < r) :
    OfType f type (r' + 1) = true := by
  induction h with
  | done _ => omega
  | @step l r l₁ r₁ l' r' hlr hs hrest ih =>
    have hle := hrest.le
    by_cases hr : r' < r₁
    · exact ih hr
    · cases hs with
      | absent hp _ => omega
      | low hp _ _ => omega
      | @high p hp hle' _ =>
        rw [show r' + 1 = p by omega]
        exact hp.passes hle'

theorem Falls.typed (h : Falls f type addr lo hi) : OfType f type lo = true := by
  rcases h.2 with ⟨-, hrun⟩ | ⟨r, hit, -⟩
  · have hnext := hrun.next (by have := h.1; omega)
    rwa [Int.sub_add_cancel] at hnext
  · exact hit.mem.2.2.2.1

/-! debuginfo_eip over tables that can be read. -/

/-- Both tables can be read where they are, and the string table ends in a NUL. -/
structure TablesReadable (t : SymTables ε σ) (s : σ) (f : Int → Stab) (g : Nat → Byte) : Prop where
  stabs : Readable t s f 0 (t.count - 1)
  nonempty : t.strEmpty = false ∧ 0 < t.strSize
  chars : ∀ off, off < t.strSize → t.char off s = .ok (g off.toNat) s
  ends : g (t.strSize.toNat - 1) = 0

variable {g : Nat → Byte} {c : Byte} {off : Word} {rounds k : Nat} {name : Name} {info : Eipdebuginfo}
  {lfile rfile : Int}

/-- A name in the string table ends there. -/
theorem strfindFor_returns (h : TablesReadable t s f g) (hk : off.toNat + k + 1 = t.strSize.toNat)
    (hrounds : k < rounds) : ∃ found, strfindFor t c rounds off s = .ok found s := by
  induction k generalizing off rounds with
  | zero =>
    obtain ⟨rounds, rfl⟩ := Nat.exists_eq_add_of_lt hrounds
    have hzero : g off.toNat = 0 := by
      rw [← h.ends]
      congr 1
      omega
    have hlt : off < t.strSize := by
      rw [BitVec.lt_def]
      omega
    refine ⟨off, ?_⟩
    rw [strfindFor, bind_ok (h.chars off hlt), if_pos hzero]
    rfl
  | succ k ih =>
    obtain ⟨rounds, rfl⟩ := Nat.exists_eq_add_of_lt hrounds
    have hlt : off < t.strSize := by
      rw [BitVec.lt_def]
      omega
    have hnext : (off + 1).toNat = off.toNat + 1 := by
      have := t.strSize.isLt
      rw [BitVec.toNat_add, show (1 : Word).toNat = 1 from rfl]
      omega
    rw [strfindFor, bind_ok (h.chars off hlt)]
    split
    · exact ⟨_, rfl⟩
    · split
      · exact ⟨_, rfl⟩
      · exact ih (by omega) (by omega)

/-- The placeholder, or an offset into the string table. -/
def InTable (t : SymTables ε σ) (name : Name) : Prop :=
  ∀ off, name = .strx off → off < t.strSize

theorem namelen_returns (h : TablesReadable t s f g) (hn : InTable t name) :
    ∃ len, namelen t name s = .ok len s := by
  cases name with
  | unknown => exact ⟨9, rfl⟩
  | strx off =>
    have hlt : off.toNat < t.strSize.toNat := hn off rfl
    have hsize := t.strSize.isLt
    obtain ⟨found, hfound⟩ : ∃ found, strfindFor t 58 (2 ^ 32) off s = .ok found s :=
      strfindFor_returns (k := t.strSize.toNat - off.toNat - 1) h (by omega) (by omega)
    exact ⟨(found - off).toInt, bind_ok hfound⟩

theorem inTable_name (hn : InTable t name) (strx : Word) : InTable t (t.name strx name) := by
  unfold SymTables.name
  split
  · intro off hoff
    cases hoff
    assumption
  · exact hn

theorem countParams_returns (h : ∀ i, left ≤ i → i < right → Holds t s (f i) i) :
    ∃ n, countParams t right rounds left s = .ok n s := by
  induction rounds generalizing left with
  | zero => exact ⟨0, rfl⟩
  | succ rounds ih =>
    rw [countParams]
    by_cases hlt : left < right
    · rw [if_pos hlt, bind_ok (h left (Int.le_refl left) hlt).type]
      by_cases hp : (f left).nType = nPsym
      · rw [if_pos hp]
        obtain ⟨n, hn⟩ : ∃ n, countParams t right rounds (left + 1) s = .ok n s :=
          ih fun i h1 h2 => h i (by omega) h2
        exact ⟨n + 1, bind_ok hn⟩
      · rw [if_neg hp]
        exact ⟨0, rfl⟩
    · rw [if_neg hlt]
      exact ⟨0, rfl⟩

/-- The backward scan for the file name stops at such a stab. -/
def fileStab (st : Stab) : Bool := st.nType = nSol ∨ (st.nType = nSo ∧ st.nValue ≠ 0)

theorem Holds.stopsFile {st : Stab} (h : Holds t s st m) : t.stopsFile m s = .ok (fileStab st) s := by
  rw [SymTables.stopsFile, bind_ok h.type]
  unfold fileStab
  by_cases hsol : st.nType = nSol
  · rw [if_pos hsol, decide_eq_true (Or.inl hsol)]
    rfl
  · rw [if_neg hsol]
    by_cases hso : st.nType = nSo
    · have hiff : (st.nType = nSol ∨ (st.nType = nSo ∧ st.nValue ≠ 0)) ↔ st.nValue ≠ 0 := by
        rw [or_iff_right hsol, and_iff_right hso]
      rw [if_pos hso, bind_ok h.value, decide_eq_decide.mpr hiff]
      rfl
    · rw [if_neg hso, decide_eq_false (not_or.mpr ⟨hsol, fun h' => hso h'.1⟩)]
      rfl

theorem filename_returns (h : Readable t s f 0 hi) {lline : Int} (hfile : 0 ≤ lfile) (hl : lline ≤ hi) :
    ∃ file, filename t lfile lline name s = .ok file s := by
  obtain ⟨j, hscan, hlast⟩ : ∃ j, scanBack t.stopsFile lfile lline s = .ok j s ∧
      LastAt (fun i => fileStab (f i)) lfile lline j := by
    exact scanBack_returns fun i h1 h2 => (h i (by omega) (by omega)).stopsFile
  have hj := hlast.le
  rw [filename, bind_ok hscan]
  by_cases hle : lfile ≤ j
  · rw [if_pos hle, bind_ok (h j (by omega) (by omega)).strx]
    exact ⟨_, rfl⟩
  · rw [if_neg hle]
    exact ⟨_, rfl⟩

theorem fnNarg_returns (h : Readable t s f 0 hi) {lfun rfun : Int} (hfun : 0 ≤ lfun + 1 ∧ rfun ≤ hi + 1) :
    ∃ narg, fnNarg t lfun rfun s = .ok narg s := by
  rw [fnNarg]
  by_cases hlt : lfun < rfun
  · rw [if_pos hlt]
    exact countParams_returns fun i h1 h2 => h i (by omega) (by omega)
  · rw [if_neg hlt]
    exact ⟨0, rfl⟩

/-- From the line search on, debuginfo_eip returns where the search does not leave the array. -/
theorem debuginfoLine_returns (h : TablesReadable t s f g) {lfun rfun lline rline : Int}
    (hn : InTable t info.eipFnName) (hl : 0 ≤ lline ∧ lline ≤ rline ∧ rline < t.count)
    (hfun : 0 ≤ lfun + 1 ∧ rfun ≤ t.count) (hfile : 0 ≤ lfile)
    (hfall : lline = 0 → ¬ Falls f nSline addr lline rline) :
    ∃ out, debuginfoLine t lfile lfun rfun lline rline addr info s = .ok out s := by
  obtain ⟨len, hlen⟩ := namelen_returns h hn
  obtain ⟨l, r, hrun, hout⟩ : ∃ l r, stabBinsearch t lline rline nSline addr s = .ok (l, r) s ∧
      Outcome f nSline addr lline rline l r :=
    stabBinsearch_outcome (fun i h1 h2 => h.stabs i (by omega) (by omega)) (by omega)
  rw [debuginfoLine, bind_ok hlen, bind_ok hrun]
  dsimp only
  by_cases hr : r < l
  · rw [if_pos hr]
    exact ⟨_, rfl⟩
  · have hb : lline - 1 ≤ l ∧ l ≤ r ∧ r ≤ rline := by
      have := hout.bounds
      omega
    have hpos : 0 ≤ l := by
      by_contra hneg
      have hzero : lline = 0 := by omega
      exact hfall hzero (hout.falls_iff.mp (by omega))
    obtain ⟨file, hfilename⟩ : ∃ file, filename t lfile l info.eipFile s = .ok file s :=
      filename_returns h.stabs hfile (by omega)
    obtain ⟨narg, hnarg⟩ : ∃ narg, fnNarg t lfun rfun s = .ok narg s :=
      fnNarg_returns h.stabs (by omega)
    rw [if_neg hr, bind_ok (h.stabs l hpos (by omega)).desc, bind_ok hfilename, bind_ok hnarg]
    exact ⟨_, rfl⟩

/-- The second of the two ways to leave the array: the file search falls off stab 2, a hit of the last
address, and the two searches from there fall off stabs 1 and 0. -/
def FallsTwice (f : Int → Stab) (hi : Int) (addr : Word) : Prop :=
  FallsAt f nSo addr 0 hi 2 ∧ Falls f nFun addr 1 1 ∧ Falls f nSline (addr - (f 0).nValue) 0 0

/-- From the function search on. -/
theorem debuginfoFile_returns (h : TablesReadable t s f g) (hfn : InTable t info.eipFnName)
    (hfile : 1 ≤ lfile ∧ lfile ≤ rfile ∧ rfile < t.count)
    (hfall : ¬ (lfile = 1 ∧ Falls f nFun addr 1 rfile ∧ Falls f nSline (addr - (f 0).nValue) 0 0)) :
    ∃ out, debuginfoFile t lfile rfile addr info s = .ok out s := by
  obtain ⟨lfun, rfun, hrun, hout⟩ : ∃ l r, stabBinsearch t lfile rfile nFun addr s = .ok (l, r) s ∧
      Outcome f nFun addr lfile rfile l r :=
    stabBinsearch_outcome (fun i h1 h2 => h.stabs i (by omega) (by omega)) (by omega)
  have hb := hout.bounds
  rw [debuginfoFile, bind_ok hrun]
  dsimp only
  by_cases hfun : lfun ≤ rfun
  · have hst := h.stabs lfun (by omega) (by omega)
    rw [if_pos hfun, bind_ok hst.strx, bind_ok hst.value]
    refine debuginfoLine_returns h (inTable_name hfn _) (by omega) (by omega) (by omega) ?_
    rintro rfl hline
    have hone : lfile = 1 := by omega
    subst hone
    have hfallen := hout.falls_iff.mp rfl
    have hr := (hout.falls 1 hfallen.1 hfallen.2).2
    obtain rfl : rfun = 0 := by omega
    exact hfall ⟨rfl, hfallen, hline⟩
  · rw [if_neg hfun]
    exact debuginfoLine_returns h hfn (by omega) (by omega) (by omega) fun h0 => by omega

end Jos
