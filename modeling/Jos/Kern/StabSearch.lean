import Jos.Kern.Kdebug

/-! What stab_binsearch finds. -/
namespace Jos

open Prog

/-- Stab `i` is of the type. -/
def OfType (f : Int → Stab) (type : Byte) (i : Int) : Bool := (f i).nType = type

/-- Every field of stab `i` can be read, and is that of `st`. -/
structure Holds {ε σ : Type} (t : SymTables ε σ) (s : σ) (st : Stab) (i : Int) : Prop where
  strx : t.nStrx i s = .ok st.nStrx s
  type : t.nType i s = .ok st.nType s
  desc : t.nDesc i s = .ok st.nDesc s
  value : t.nValue i s = .ok st.nValue s

/-- The stabs from `lo` to `hi` are those of `f`, and can be read. -/
def Readable {ε σ : Type} (t : SymTables ε σ) (s : σ) (f : Int → Stab) (lo hi : Int) : Prop :=
  ∀ i, lo ≤ i → i ≤ hi → Holds t s (f i) i

/-- The last stab of the type in the lower half of [l, r]. -/
def Probe (f : Int → Stab) (type : Byte) (l r m : Int) : Prop :=
  LastAt (OfType f type) l ((l + r).tdiv 2) m

/-- A round of the loop. -/
inductive SearchStep (f : Int → Stab) (type : Byte) (q : Search) : Search → Prop
  | absent {m : Int} (hm : Probe f type q.l q.r m) (hlt : m < q.l) :
    SearchStep f type q { q with l := (q.l + q.r).tdiv 2 + 1 }
  | low {m : Int} (hm : Probe f type q.l q.r m) (hle : q.l ≤ m) (hv : (f m).nValue < q.addr) :
    SearchStep f type q
      { q with anyMatches := true, regionLeft := m, l := (q.l + q.r).tdiv 2 + 1 }
  | high {m : Int} (hm : Probe f type q.l q.r m) (hle : q.l ≤ m) (hv : q.addr < (f m).nValue) :
    SearchStep f type q { q with anyMatches := true, regionRight := m - 1, r := m - 1 }
  | hit {m : Int} (hm : Probe f type q.l q.r m) (hle : q.l ≤ m) (hv : (f m).nValue = q.addr) :
    SearchStep f type q
      { q with anyMatches := true, regionLeft := m, l := m, addr := q.addr + 1 }

variable {ε σ : Type} {t : SymTables ε σ} {s : σ} {f : Int → Stab} {type : Byte} {lo hi l r m : Int}
  {q q' : Search} {addr : Word} {rounds : Nat}

/-- The middle of a region lies in it. -/
theorem tdiv_two_mem (h : l ≤ r) : l ≤ (l + r).tdiv 2 ∧ (l + r).tdiv 2 ≤ r := by
  rcases Int.le_total 0 (l + r) with hpos | hneg
  · rw [Int.tdiv_eq_ediv_of_nonneg hpos]
    omega
  · have hdiv : (l + r).tdiv 2 = -(-(l + r) / 2) := by
      rw [← Int.tdiv_eq_ediv_of_nonneg (by omega), Int.neg_tdiv, Int.neg_neg]
    rw [hdiv]
    omega

theorem Readable.hasType (h : Readable t s f lo hi) {i : Int} (h1 : lo ≤ i) (h2 : i ≤ hi) :
    t.hasType type i s = .ok (OfType f type i) s := by
  rw [SymTables.hasType, bind_ok (h i h1 h2).type]
  rfl

/-- The stabs of a table of its own can be read. -/
theorem DebugTables.holds (d : DebugTables) (h0 : 0 ≤ m) (hlt : m < d.stabs.length) :
    Holds d.access () (d.entry m) m where
  strx := bind_ok (check_true ⟨h0, hlt⟩ ())
  type := bind_ok (check_true ⟨h0, hlt⟩ ())
  desc := bind_ok (check_true ⟨h0, hlt⟩ ())
  value := bind_ok (check_true ⟨h0, hlt⟩ ())

theorem Probe.le (h : Probe f type l r m) (hlr : l ≤ r) : m ≤ r :=
  Int.le_trans (LastAt.le h) (tdiv_two_mem hlr).2

/-- One round, as the code takes it. -/
theorem binsearchLoop_step (h : Readable t s f lo hi) (hq : q.l ≤ q.r) (hlo : lo ≤ q.l) (hhi : q.r ≤ hi) :
    ∃ q', SearchStep f type q q' ∧
      binsearchLoop t type (rounds + 1) q s = binsearchLoop t type rounds q' s := by
  obtain ⟨hmid, hmid'⟩ := tdiv_two_mem hq
  obtain ⟨m, hscan, hm⟩ : ∃ m, scanBack (t.hasType type) q.l ((q.l + q.r).tdiv 2) s = .ok m s ∧
      Probe f type q.l q.r m :=
    scanBack_returns fun i h1 h2 => h.hasType (by omega) (by omega)
  have hle := hm.le hq
  rw [binsearchLoop, if_pos hq, bind_ok hscan]
  by_cases hlt : m < q.l
  · rw [if_pos hlt]
    exact ⟨_, .absent hm hlt, rfl⟩
  · rw [if_neg hlt, bind_ok (h m (by omega) (by omega)).value]
    have hge : q.l ≤ m := by omega
    by_cases hb : (f m).nValue < q.addr
    · rw [if_pos hb]
      exact ⟨_, .low hm hge hb, rfl⟩
    · rw [if_neg hb]
      by_cases ha : q.addr < (f m).nValue
      · rw [if_pos ha]
        exact ⟨_, .high hm hge ha, rfl⟩
      · rw [if_neg ha]
        exact ⟨_, .hit hm hge (BitVec.le_antisymm (BitVec.not_lt.mp ha) (BitVec.not_lt.mp hb)), rfl⟩

/-- What a round makes smaller: the region, or else the stab at its left end ceases to be the key. -/
def Search.size (f : Int → Stab) (q : Search) : Nat :=
  2 * (q.r + 1 - q.l).toNat + if (f q.l).nValue = q.addr then 1 else 0

theorem SearchStep.size_lt (h : SearchStep f type q q') (hq : q.l ≤ q.r) : q'.size f < q.size f := by
  obtain ⟨hmid, hmid'⟩ := tdiv_two_mem hq
  cases h with
  | absent hm hlt =>
    simp only [Search.size]
    split <;> split <;> omega
  | low hm hle hv =>
    simp only [Search.size]
    split <;> split <;> omega
  | high hm hle hv =>
    have := hm.le hq
    simp only [Search.size]
    split <;> omega
  | @hit m hm hle hv =>
    have hmr := hm.le hq
    have hnext : ¬ (f m).nValue = q.addr + 1 := by
      rw [hv]
      intro heq
      have hone := congrArg BitVec.toNat heq
      rw [BitVec.toNat_add] at hone
      have hlt := q.addr.isLt
      have h1 : (1 : Word).toNat = 1 := rfl
      omega
    simp only [Search.size, if_neg hnext]
    by_cases hml : m = q.l
    · rw [← hml, if_pos hv]
      omega
    · split <;> omega

/-- The loop ends, and an invariant of its rounds that keeps the region readable holds then. -/
theorem binsearchLoop_rule {I : Search → Prop} (h : Readable t s f lo hi)
    (hrange : ∀ q, I q → q.l ≤ q.r → lo ≤ q.l ∧ q.r ≤ hi)
    (hstep : ∀ q q', I q → q.l ≤ q.r → SearchStep f type q q' → I q')
    (h0 : I q) (hrounds : q.size f < rounds) :
    ∃ q', binsearchLoop t type rounds q s = .ok q' s ∧ I q' ∧ q'.r < q'.l := by
  induction rounds generalizing q with
  | zero => omega
  | succ rounds ih =>
    by_cases hq : q.l ≤ q.r
    · obtain ⟨hlo, hhi⟩ := hrange q h0 hq
      obtain ⟨q', hq', heq⟩ : ∃ q', SearchStep f type q q' ∧ binsearchLoop t type (rounds + 1) q s = _ :=
        binsearchLoop_step h hq hlo hhi
      have hlt := hq'.size_lt hq
      rw [heq]
      exact ih (hstep q q' h0 hq hq') (by omega)
    · refine ⟨q, ?_, h0, by omega⟩
      rw [binsearchLoop, if_neg hq]
      rfl

/-- What stab_binsearch makes of the variables its loop ends with. -/
inductive Found (f : Int → Stab) (type : Byte) (q : Search) : Int → Int → Prop
  | none (h : q.anyMatches = false) : Found f type q q.regionLeft (q.regionLeft - 1)
  | some {j : Int} (h : q.anyMatches = true)
    (hj : LastAt (OfType f type) (q.regionLeft + 1) q.regionRight j) : Found f type q j q.regionRight

/-- stab_binsearch returns what an invariant of its rounds says about the end of its loop. -/
theorem stabBinsearch_rule {I : Search → Prop} (h : Readable t s f lo hi)
    (hrange : ∀ q, I q → q.l ≤ q.r → lo ≤ q.l ∧ q.r ≤ hi)
    (hstep : ∀ q q', I q → q.l ≤ q.r → SearchStep f type q q' → I q')
    (hend : ∀ q, I q → lo ≤ q.regionLeft + 1 ∧ q.regionRight ≤ hi)
    (h0 : I ⟨l, r, l, r, false, addr⟩) :
    ∃ q left right, stabBinsearch t l r type addr s = .ok (left, right) s ∧ I q ∧ q.r < q.l ∧
      Found f type q left right := by
  have hrounds : Search.size f ⟨l, r, l, r, false, addr⟩ < searchRounds l r := by
    simp only [Search.size, searchRounds]
    split <;> omega
  obtain ⟨q, hloop, hI, hq⟩ := binsearchLoop_rule h hrange hstep h0 hrounds
  obtain ⟨hleft, hright⟩ := hend q hI
  cases hany : q.anyMatches with
  | false =>
    refine ⟨q, _, _, ?_, hI, hq, .none hany⟩
    rw [stabBinsearch, bind_ok hloop, hany, if_pos Bool.false_ne_true]
    rfl
  | true =>
    obtain ⟨j, hscan, hj⟩ : ∃ j, scanBack (t.hasType type) (q.regionLeft + 1) q.regionRight s =
        .ok j s ∧ LastAt (OfType f type) (q.regionLeft + 1) q.regionRight j :=
      scanBack_returns fun i h1 h2 => h.hasType (by omega) (by omega)
    refine ⟨q, _, _, ?_, hI, hq, .some hany hj⟩
    rw [stabBinsearch, bind_ok hloop, hany, if_neg (not_not.mpr rfl), bind_ok hscan]
    rfl

/-! The search for one key, up to its first exact hit. -/

/-- Searching [l, r] for the key `a`, a round without an exact hit goes on in [l', r']. -/
inductive RegionStep (f : Int → Stab) (type : Byte) (a : Word) (l r : Int) : Int → Int → Prop
  | absent {p : Int} (hp : Probe f type l r p) (hlt : p < l) :
    RegionStep f type a l r ((l + r).tdiv 2 + 1) r
  | low {p : Int} (hp : Probe f type l r p) (hle : l ≤ p) (hv : (f p).nValue < a) :
    RegionStep f type a l r ((l + r).tdiv 2 + 1) r
  | high {p : Int} (hp : Probe f type l r p) (hle : l ≤ p) (hv : a < (f p).nValue) :
    RegionStep f type a l r l (p - 1)

/-- Searching [l, r] for the key `a`, the first stab compared that has this value is `m`, with `r'`
the right end of the region then. -/
inductive FirstHit (f : Int → Stab) (type : Byte) (a : Word) : Int → Int → Int → Int → Prop
  | hit {l r m : Int} (hlr : l ≤ r) (hm : Probe f type l r m) (hle : l ≤ m) (hv : (f m).nValue = a) :
    FirstHit f type a l r m r
  | step {l r l' r' m r'' : Int} (hlr : l ≤ r) (hs : RegionStep f type a l r l' r')
    (h : FirstHit f type a l' r' m r'') : FirstHit f type a l r m r''

variable {a : Word} {l' r' r'' l'' m' : Int}

theorem RegionStep.mem (h : RegionStep f type a l r l' r') (hlr : l ≤ r) : l ≤ l' ∧ r' ≤ r := by
  have hmid := tdiv_two_mem hlr
  cases h with
  | absent hp hlt => exact ⟨by omega, Int.le_refl r⟩
  | low hp hle hv => exact ⟨by omega, Int.le_refl r⟩
  | high hp hle hv =>
    have := hp.le hlr
    exact ⟨Int.le_refl l, by omega⟩

theorem RegionStep.unique (h : RegionStep f type a l r l' r') (h' : RegionStep f type a l r l'' r'') :
    l'' = l' ∧ r'' = r' := by
  cases h with
  | absent hp hlt =>
    cases h' with
    | absent _ _ => exact ⟨rfl, rfl⟩
    | low _ _ _ => exact ⟨rfl, rfl⟩
    | high hp' hle _ =>
      have := hp.unique hp'
      omega
  | low hp hle hv =>
    cases h' with
    | absent _ _ => exact ⟨rfl, rfl⟩
    | low _ _ _ => exact ⟨rfl, rfl⟩
    | high hp' _ hv' =>
      rw [← hp.unique hp'] at hv'
      exact absurd (BitVec.lt_trans hv hv') (BitVec.lt_irrefl _)
  | high hp hle hv =>
    cases h' with
    | absent hp' hlt =>
      have := hp.unique hp'
      omega
    | low hp' _ hv' =>
      rw [← hp.unique hp'] at hv'
      exact absurd (BitVec.lt_trans hv hv') (BitVec.lt_irrefl _)
    | high hp' _ _ => exact ⟨rfl, by rw [hp.unique hp']⟩

/-- A round that does not hit does not compare an equal stab. -/
theorem RegionStep.not_hit (h : RegionStep f type a l r l' r') (hm : Probe f type l r m) (hle : l ≤ m) :
    (f m).nValue ≠ a := by
  rintro rfl
  cases h with
  | absent hp hlt =>
    have := hp.unique hm
    omega
  | low hp _ hv =>
    rw [hp.unique hm] at hv
    exact BitVec.lt_irrefl _ hv
  | high hp _ hv =>
    rw [hp.unique hm] at hv
    exact BitVec.lt_irrefl _ hv

theorem FirstHit.region (h : FirstHit f type a l r m r') : l ≤ r := by
  cases h <;> assumption

theorem FirstHit.mem (h : FirstHit f type a l r m r') :
    l ≤ m ∧ m ≤ r' ∧ r' ≤ r ∧ OfType f type m = true ∧ (f m).nValue = a := by
  induction h with
  | hit hlr hm hle hv => exact ⟨hle, hm.le hlr, Int.le_refl _, hm.passes hle, hv⟩
  | step hlr hs _ ih =>
    obtain ⟨h1, h2⟩ := hs.mem hlr
    exact ⟨by omega, ih.2.1, by omega, ih.2.2.2⟩

/-- A round without a hit leaves the first hit as it was. -/
theorem RegionStep.firstHit_iff (hs : RegionStep f type a l r l' r') (hlr : l ≤ r) :
    FirstHit f type a l r m r'' ↔ FirstHit f type a l' r' m r'' := by
  constructor
  · intro h
    cases h with
    | hit _ hm hle hv => exact absurd hv (hs.not_hit hm hle)
    | step _ hs' hrest =>
      obtain ⟨rfl, rfl⟩ := hs.unique hs'
      exact hrest
  · exact .step hlr hs

theorem FirstHit.unique (h : FirstHit f type a l r m r') (h' : FirstHit f type a l r m' r'') :
    m' = m ∧ r'' = r' := by
  induction h with
  | hit hlr hm hle hv =>
    cases h' with
    | hit _ hm' _ _ => exact ⟨hm'.unique hm, rfl⟩
    | step _ hs' _ => exact absurd hv (hs'.not_hit hm hle)
  | step hlr hs _ ih => exact ih ((hs.firstHit_iff hlr).mp h')

/-- Searching [l, r] for the key `a` compares no stab of this value, and ends with [l', r']. -/
inductive RunsOut (f : Int → Stab) (type : Byte) (a : Word) : Int → Int → Int → Int → Prop
  | done {l r : Int} (h : r < l) : RunsOut f type a l r l r
  | step {l r l' r' l'' r'' : Int} (hlr : l ≤ r) (hs : RegionStep f type a l r l' r')
    (h : RunsOut f type a l' r' l'' r'') : RunsOut f type a l r l'' r''

theorem RegionStep.runsOut_iff (hs : RegionStep f type a l r l' r') (hlr : l ≤ r) :
    RunsOut f type a l r l'' r'' ↔ RunsOut f type a l' r' l'' r'' := by
  constructor
  · intro h
    cases h with
    | done hlt => omega
    | step _ hs' hrest =>
      obtain ⟨rfl, rfl⟩ := hs.unique hs'
      exact hrest
  · exact .step hlr hs

theorem RunsOut.eq (h : RunsOut f type a l r l' r') (hlt : r < l) : l' = l ∧ r' = r := by
  cases h with
  | done _ => exact ⟨rfl, rfl⟩
  | step hlr _ _ => omega

theorem RunsOut.no_hit (h : RunsOut f type a l r l' r') : ¬ FirstHit f type a l r m r'' := by
  induction h with
  | done hlt =>
    intro hit
    have := hit.region
    omega
  | step hlr hs _ ih => exact fun hit => ih ((hs.firstHit_iff hlr).mp hit)

/-! The loop between two exact hits. -/

/-- The last stab of the type before the region has a smaller value than the key, and is where
`*region_left` is. -/
structure BelowKey (f : Int → Stab) (type : Byte) (a : Word) (l₀ : Int) (q : Search) : Prop where
  any : q.anyMatches = true
  ge : l₀ ≤ q.regionLeft
  lt : q.regionLeft < q.l
  typed : OfType f type q.regionLeft = true
  value : (f q.regionLeft).nValue < a
  last : ∀ i, q.regionLeft < i → i < q.l → OfType f type i = false

/-- The loop has come from [l₀, r₀] to [l, r] without an exact hit. -/
structure Bracket (f : Int → Stab) (type : Byte) (a : Word) (l₀ r₀ : Int) (any₀ : Bool)
    (q : Search) : Prop where
  key : q.addr = a
  region : l₀ ≤ q.l ∧ q.l ≤ q.r + 1 ∧ q.r ≤ r₀
  right : q.regionRight = q.r
  left : (q.regionLeft = l₀ ∧ ∀ i, l₀ ≤ i → i < q.l → OfType f type i = false) ∨ BelowKey f type a l₀ q
  next : q.r < r₀ → q.anyMatches = true ∧ OfType f type (q.r + 1) = true ∧ a < (f (q.r + 1)).nValue
  any : q.anyMatches = true → any₀ = true ∨ BelowKey f type a l₀ q ∨ q.r < r₀
  stays : any₀ = true → q.anyMatches = true
  hits : ∀ m r, FirstHit f type a l₀ r₀ m r ↔ FirstHit f type a q.l q.r m r
  runsOut : ∀ l r, RunsOut f type a l₀ r₀ l r ↔ RunsOut f type a q.l q.r l r

variable {l₀ r₀ : Int} {any₀ : Bool}

theorem bracket_start (h : l ≤ r + 1) : Bracket f type a l r any₀ ⟨l, r, l, r, any₀, a⟩ where
  key := rfl
  region := ⟨Int.le_refl l, h, Int.le_refl r⟩
  right := rfl
  left := Or.inl ⟨rfl, fun _ h1 h2 => absurd h2 (Int.not_lt.mpr h1)⟩
  next := fun hlt => absurd hlt (Int.lt_irrefl r)
  any := Or.inl
  stays := id
  hits := fun _ _ => Iff.rfl
  runsOut := fun _ _ => Iff.rfl

/-- Where the loop goes past stabs of other types. -/
theorem BelowKey.widen (h : BelowKey f type a l₀ q) {l' : Int} (hl : q.l ≤ l')
    (hnone : ∀ i, q.l ≤ i → i < l' → OfType f type i = false) :
    BelowKey f type a l₀ { q with l := l' } where
  any := h.any
  ge := h.ge
  lt := Int.lt_of_lt_of_le h.lt hl
  typed := h.typed
  value := h.value
  last := by
    intro i h1 h2
    by_cases hi : i < q.l
    · exact h.last i h1 hi
    · exact hnone i (by omega) h2

theorem Bracket.absent (h : Bracket f type a l₀ r₀ any₀ q) (hq : q.l ≤ q.r) {p : Int}
    (hp : Probe f type q.l q.r p) (hlt : p < q.l) :
    Bracket f type a l₀ r₀ any₀ { q with l := (q.l + q.r).tdiv 2 + 1 } := by
  obtain ⟨hreg1, hreg2, hreg3⟩ := h.region
  obtain ⟨hmid1, hmid2⟩ := tdiv_two_mem hq
  have hnone : ∀ i, q.l ≤ i → i < (q.l + q.r).tdiv 2 + 1 → OfType f type i = false :=
    fun i h1 h2 => hp.none i (by omega) (by omega)
  have hwiden : BelowKey f type a l₀ q → BelowKey f type a l₀ { q with l := (q.l + q.r).tdiv 2 + 1 } :=
    fun hb => hb.widen (by omega) hnone
  refine ⟨h.key, ⟨by simp only; omega, by simp only; omega, hreg3⟩, h.right, ?_, h.next, ?_, h.stays, ?_, ?_⟩
  · rcases h.left with ⟨hl, hn⟩ | hb
    · refine Or.inl ⟨hl, fun i h1 h2 => ?_⟩
      by_cases hi : i < q.l
      · exact hn i h1 hi
      · exact hnone i (by omega) h2
    · exact Or.inr (hwiden hb)
  · intro hany
    rcases h.any hany with h0 | hb | hr
    · exact Or.inl h0
    · exact Or.inr (Or.inl (hwiden hb))
    · exact Or.inr (Or.inr hr)
  · intro m r
    rw [h.hits]
    exact (RegionStep.absent hp hlt).firstHit_iff hq
  · intro l r
    rw [h.runsOut]
    exact (RegionStep.absent hp hlt).runsOut_iff hq

theorem Bracket.low (h : Bracket f type a l₀ r₀ any₀ q) (hq : q.l ≤ q.r) {p : Int}
    (hp : Probe f type q.l q.r p) (hle : q.l ≤ p) (hv : (f p).nValue < a) :
    Bracket f type a l₀ r₀ any₀
      { q with anyMatches := true, regionLeft := p, l := (q.l + q.r).tdiv 2 + 1 } := by
  obtain ⟨hreg1, hreg2, hreg3⟩ := h.region
  obtain ⟨hmid1, hmid2⟩ := tdiv_two_mem hq
  have hpm : p ≤ (q.l + q.r).tdiv 2 := LastAt.le hp
  have hb : BelowKey f type a l₀
      { q with anyMatches := true, regionLeft := p, l := (q.l + q.r).tdiv 2 + 1 } :=
    ⟨rfl, by simp only; omega, by simp only; omega, hp.passes hle, hv,
      fun i h1 h2 => hp.none i h1 (by simp only at h2; omega)⟩
  refine ⟨h.key, ⟨by simp only; omega, by simp only; omega, hreg3⟩, h.right, Or.inr hb, ?_, ?_, ?_, ?_, ?_⟩
  · intro hr
    exact ⟨rfl, (h.next hr).2⟩
  · exact fun _ => Or.inr (Or.inl hb)
  · exact fun _ => rfl
  · intro m r
    rw [h.hits]
    exact (RegionStep.low hp hle hv).firstHit_iff hq
  · intro l r
    rw [h.runsOut]
    exact (RegionStep.low hp hle hv).runsOut_iff hq

theorem Bracket.high (h : Bracket f type a l₀ r₀ any₀ q) (hq : q.l ≤ q.r) {p : Int}
    (hp : Probe f type q.l q.r p) (hle : q.l ≤ p) (hv : a < (f p).nValue) :
    Bracket f type a l₀ r₀ any₀
      { q with anyMatches := true, regionRight := p - 1, r := p - 1 } := by
  obtain ⟨hreg1, hreg2, hreg3⟩ := h.region
  have hpr := hp.le hq
  have hlt : p - 1 < r₀ := by omega
  have hkeep : BelowKey f type a l₀ q →
      BelowKey f type a l₀ { q with anyMatches := true, regionRight := p - 1, r := p - 1 } :=
    fun hb => ⟨rfl, hb.ge, hb.lt, hb.typed, hb.value, hb.last⟩
  refine ⟨h.key, ⟨hreg1, by simp only; omega, by simp only; omega⟩, rfl, h.left.imp_right hkeep,
    fun _ => ⟨rfl, ?_⟩, fun _ => Or.inr (Or.inr hlt), fun _ => rfl, ?_, ?_⟩
  · simp only [Int.sub_add_cancel]
    exact ⟨hp.passes hle, hv⟩
  · intro m r
    rw [h.hits]
    exact (RegionStep.high hp hle hv).firstHit_iff hq
  · intro l r
    rw [h.runsOut]
    exact (RegionStep.high hp hle hv).runsOut_iff hq

/-- A round either keeps the bracket or hits the key. -/
theorem Bracket.step (h : Bracket f type a l₀ r₀ any₀ q) (hq : q.l ≤ q.r)
    (hs : SearchStep f type q q') :
    Bracket f type a l₀ r₀ any₀ q' ∨ ∃ m, FirstHit f type a l₀ r₀ m q.r ∧
      q' = ⟨m, q.r, m, q.r, true, a + 1⟩ := by
  cases hs with
  | absent hp hlt => exact Or.inl (h.absent hq hp hlt)
  | low hp hle hv => exact Or.inl (h.low hq hp hle (h.key ▸ hv))
  | high hp hle hv => exact Or.inl (h.high hq hp hle (h.key ▸ hv))
  | @hit m hm hle hv =>
    rw [h.key] at hv
    refine Or.inr ⟨m, (h.hits _ _).mpr (.hit hq hm hle hv), ?_⟩
    rw [h.key, h.right]

/-! The loop after a second hit, or with a key that has wrapped. -/

/-- The key has become 0 at stab `m`. -/
structure Wrapped (f : Int → Stab) (type : Byte) (m hi : Int) (q : Search) : Prop where
  any : q.anyMatches = true
  key : q.addr = 0
  l : q.l = m
  left : q.regionLeft = m
  right : q.regionRight = q.r
  region : m - 1 ≤ q.r ∧ q.r ≤ hi
  typed : OfType f type m = true

theorem Wrapped.step (h : Wrapped f type m hi q) (hq : q.l ≤ q.r) (hs : SearchStep f type q q')
    (hpos : ∀ i, m ≤ i → i ≤ hi → OfType f type i = true → 0 < (f i).nValue) :
    Wrapped f type m hi q' := by
  obtain ⟨hmid1, hmid2⟩ := tdiv_two_mem hq
  have hl := h.l
  have hreg := h.region
  have hvalue : ∀ p, Probe f type q.l q.r p → q.l ≤ p → q.addr < (f p).nValue := by
    intro p hp hle
    have := hp.le hq
    rw [h.key]
    exact hpos p (by omega) (by omega) (hp.passes hle)
  cases hs with
  | absent hp hlt =>
    have hnone := hp.none m (by omega) (by omega)
    rw [h.typed] at hnone
    cases hnone
  | low hp hle hv => exact absurd (BitVec.lt_trans hv (hvalue _ hp hle)) (BitVec.lt_irrefl _)
  | high hp hle hv =>
    have := hp.le hq
    exact ⟨rfl, h.key, h.l, h.left, rfl, ⟨by simp only; omega, by simp only; omega⟩, h.typed⟩
  | hit hp hle hv => exact absurd (hvalue _ hp hle) (by rw [hv]; exact BitVec.lt_irrefl _)

/-- Stab `m` has been hit, and the key has gone past it. -/
structure Beyond (f : Int → Stab) (m hi : Int) (q : Search) : Prop where
  any : q.anyMatches = true
  l : m ≤ q.l
  left : m ≤ q.regionLeft
  right : q.regionRight = q.r
  region : m ≤ q.r ∧ q.r ≤ hi
  key : q.l = m → (f m).nValue < q.addr

theorem Beyond.step (h : Beyond f m hi q) (hq : q.l ≤ q.r) (hs : SearchStep f type q q') :
    Beyond f m hi q' := by
  obtain ⟨hmid1, hmid2⟩ := tdiv_two_mem hq
  have hl := h.l
  have hreg := h.region
  have hne : ∀ p, q.l ≤ p → q.addr ≤ (f p).nValue → m < p := by
    intro p hle hv
    by_contra hn
    have hp : p = m := by omega
    rw [hp] at hv
    exact absurd (h.key (by omega)) (BitVec.not_lt.mpr hv)
  cases hs with
  | absent hp hlt =>
    exact ⟨h.any, by simp only; omega, h.left, h.right, h.region, fun hm => by simp only at hm; omega⟩
  | low hp hle hv =>
    exact ⟨rfl, by simp only; omega, by simp only; omega, h.right, h.region,
      fun hm => by simp only at hm; omega⟩
  | high hp hle hv =>
    have hlt := hne _ hle (BitVec.le_of_lt hv)
    have := hp.le hq
    exact ⟨rfl, h.l, h.left, rfl, ⟨by simp only; omega, by simp only; omega⟩, h.key⟩
  | hit hp hle hv =>
    have hlt := hne _ hle (by rw [hv]; exact BitVec.le_refl _)
    exact ⟨rfl, by simp only; omega, by simp only; omega, h.right, h.region,
      fun hm => by simp only at hm; omega⟩

end Jos
