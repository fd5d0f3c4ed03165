import Jos.Kern.StabSearch

/-! The entry stab_binsearch finds. -/
namespace Jos

open Prog

variable {ε σ : Type} {t : SymTables ε σ} {s : σ} {f : Int → Stab} {type : Byte}
  {lo hi l r m r' m' l₀ r₀ left right : Int} {q q' : Search} {addr a : Word} {any₀ : Bool}

/-- The stabs of the type in [lo, hi] are ordered by value. -/
def Ordered (f : Int → Stab) (type : Byte) (lo hi : Int) : Prop :=
  ∀ i j, lo ≤ i → i ≤ j → j ≤ hi → OfType f type i = true → OfType f type j = true →
    (f i).nValue ≤ (f j).nValue

/-- Some stab of the type in [lo, hi] has a value up to the address. -/
def SomeBefore (f : Int → Stab) (type : Byte) (lo hi : Int) (addr : Word) : Prop :=
  ∃ i, lo ≤ i ∧ i ≤ hi ∧ OfType f type i = true ∧ (f i).nValue ≤ addr

/-- What stab_binsearch should leave in its region, from [lo, hi]: the last stab of the type that
does not lie behind the address and the stab before the next of the type, or an empty region. -/
structure FindsStab (f : Int → Stab) (type : Byte) (lo hi : Int) (addr : Word) (left right : Int) :
    Prop where
  last : SomeBefore f type lo hi addr → lo ≤ left ∧ left ≤ hi ∧ OfType f type left = true ∧
    (f left).nValue ≤ addr ∧ ∀ i, left < i → i ≤ hi → OfType f type i = true → addr < (f i).nValue
  next : SomeBefore f type lo hi addr → left ≤ right ∧ right ≤ hi ∧
    (∀ i, left < i → i ≤ right → OfType f type i = false) ∧
    (right = hi ∨ OfType f type (right + 1) = true)
  missing : ¬ SomeBefore f type lo hi addr → right < left

/-- Searching for the address either hits no equal stab first, or then hits no stab one behind it (the
last two addresses are different). -/
def HitsHarmlessly (f : Int → Stab) (type : Byte) (lo hi : Int) (addr : Word) : Prop :=
  ∀ m r, FirstHit f type addr lo hi m r → addr ≠ 0xFFFFFFFF ∧
    ∀ m' r', FirstHit f type (addr + 1) m r m' r' →
      addr = 0xFFFFFFFE ∧ OfType f type (m' - 1) = true ∧ (f (m' - 1)).nValue = addr

/-- Where the loop can be: before a hit, between two hits, or behind. -/
inductive Phase (f : Int → Stab) (type : Byte) (lo hi : Int) (addr : Word) (q : Search) : Prop
  | first (h : Bracket f type addr lo hi false q)
  | second {m r : Int} (hne : addr ≠ 0xFFFFFFFF) (hit : FirstHit f type addr lo hi m r)
    (hr : r < hi → OfType f type (r + 1) = true ∧ addr < (f (r + 1)).nValue)
    (h : Bracket f type (addr + 1) m r true q)
  | wrapped {m r : Int} (last : addr = 0xFFFFFFFF) (hit : FirstHit f type addr lo hi m r)
    (h : Wrapped f type m hi q)
  | wrappedSecond {m r m' r' : Int} (hne : addr = 0xFFFFFFFE) (hit : FirstHit f type addr lo hi m r)
    (hit' : FirstHit f type (addr + 1) m r m' r') (h : Wrapped f type m' hi q)
  | beyond {m r m' r' : Int} (hne : addr ≠ 0xFFFFFFFF) (hne' : addr ≠ 0xFFFFFFFE)
    (hit : FirstHit f type addr lo hi m r) (hit' : FirstHit f type (addr + 1) m r m' r')
    (h : Beyond f m' hi q)

section words

variable {x : Word}

theorem toNat_succ (h : a ≠ 0xFFFFFFFF) : (a + 1).toNat = a.toNat + 1 := by
  have hlt := a.isLt
  have hne : a.toNat ≠ 4294967295 := fun he => h (BitVec.eq_of_toNat_eq he)
  rw [BitVec.toNat_add, show (1 : Word).toNat = 1 from rfl]
  omega

theorem lt_succ_iff (h : a ≠ 0xFFFFFFFF) : x < a + 1 ↔ x ≤ a := by
  rw [BitVec.lt_def, BitVec.le_def, toNat_succ h]
  omega

theorem succ_le_iff (h : a ≠ 0xFFFFFFFF) : a + 1 ≤ x ↔ a < x := by
  rw [BitVec.lt_def, BitVec.le_def, toNat_succ h]
  omega

end words

/-- The stabs behind one whose value is the last address. -/
theorem Ordered.pos (ho : Ordered f type lo hi) (hm : lo ≤ m) (ht : OfType f type m = true)
    (hv : (f m).nValue = 0xFFFFFFFF) :
    ∀ i, m ≤ i → i ≤ hi → OfType f type i = true → 0 < (f i).nValue := by
  intro i h1 h2 h3
  have hle := ho m i hm h1 h2 ht h3
  rw [hv, BitVec.le_def, show (0xFFFFFFFF : Word).toNat = 4294967295 from rfl] at hle
  rw [BitVec.lt_def, show (0 : Word).toNat = 0 from rfl]
  omega

theorem Phase.step (ho : Ordered f type lo hi) (h : Phase f type lo hi addr q) (hq : q.l ≤ q.r)
    (hs : SearchStep f type q q') : Phase f type lo hi addr q' := by
  cases h with
  | first h =>
    have hr := h.region.2.2
    rcases h.step hq hs with h' | ⟨m, hit, rfl⟩
    · exact .first h'
    · obtain ⟨h1, h2, -, ht, hv⟩ := hit.mem
      by_cases hlast : addr = 0xFFFFFFFF
      · exact .wrapped hlast hit ⟨rfl, by rw [hlast]; rfl, rfl, rfl, rfl, ⟨by simp only; omega, hr⟩, ht⟩
      · exact .second hlast hit (fun hlt => (h.next hlt).2) (bracket_start (by omega))
  | @second m r hne hit hnext h =>
    obtain ⟨h1, h2, h3, -, -⟩ := hit.mem
    have hr := h.region.2.2
    rcases h.step hq hs with h' | ⟨m', hit', rfl⟩
    · exact .second hne hit hnext h'
    · obtain ⟨h1', h2', -, ht', hv'⟩ := hit'.mem
      by_cases hlast : addr = 0xFFFFFFFE
      · exact .wrappedSecond hlast hit hit'
          ⟨rfl, by rw [hlast]; rfl, rfl, rfl, rfl, ⟨by simp only; omega, by simp only; omega⟩, ht'⟩
      · have hmax : addr + 1 ≠ 0xFFFFFFFF := by
          intro heq
          apply hlast
          rw [← BitVec.add_sub_cancel addr 1, heq]
          rfl
        refine .beyond hne hlast hit hit' ⟨rfl, Int.le_refl _, Int.le_refl _, rfl,
          ⟨h2', by simp only; omega⟩, fun _ => ?_⟩
        rw [hv']
        exact (lt_succ_iff hmax).mpr (BitVec.le_refl _)
  | wrapped hlast hit h =>
    obtain ⟨h1, -, -, ht, hv⟩ := hit.mem
    exact .wrapped hlast hit (h.step hq hs (ho.pos h1 ht (hv.trans hlast)))
  | wrappedSecond hlast hit hit' h =>
    obtain ⟨h1, -⟩ := hit.mem
    obtain ⟨h1', -, -, ht, hv⟩ := hit'.mem
    exact .wrappedSecond hlast hit hit' (h.step hq hs (ho.pos (by omega) ht (by rw [hv, hlast]; rfl)))
  | beyond hne hne' hit hit' h => exact .beyond hne hne' hit hit' (h.step hq hs)

/-- The loop keeps to its region. -/
theorem Phase.range (h : Phase f type lo hi addr q) :
    lo ≤ q.l ∧ q.r ≤ hi ∧ lo ≤ q.regionLeft + 1 ∧ q.regionRight ≤ hi := by
  cases h with
  | first h =>
    have hreg := h.region
    have hright := h.right
    rcases h.left with ⟨hl, -⟩ | hb
    · omega
    · have := hb.ge
      omega
  | second _ hit _ h =>
    have hreg := h.region
    have hright := h.right
    have hmem := hit.mem
    rcases h.left with ⟨hl, -⟩ | hb
    · omega
    · have := hb.ge
      omega
  | wrapped _ hit h =>
    have hreg := h.region
    have hright := h.right
    have hmem := hit.mem
    have hl := h.l
    have hleft := h.left
    omega
  | wrappedSecond _ hit hit' h =>
    have hreg := h.region
    have hright := h.right
    have hmem := hit.mem
    have hmem' := hit'.mem
    have hl := h.l
    have hleft := h.left
    omega
  | beyond _ _ hit hit' h =>
    have hreg := h.region
    have hright := h.right
    have hmem := hit.mem
    have hmem' := hit'.mem
    have hl := h.l
    have hleft := h.left
    omega

/-! What each phase ends with. -/

/-- The last scan, where no stab of the type lies between the bounds. -/
theorem Found.eq_left (h : Found f type q left right) (hany : q.anyMatches = true)
    (hle : q.regionLeft ≤ q.regionRight)
    (hnone : ∀ i, q.regionLeft < i → i ≤ q.regionRight → OfType f type i = false) :
    left = q.regionLeft ∧ right = q.regionRight := by
  cases h with
  | none h0 =>
    rw [hany] at h0
    cases h0
  | some _ hj =>
    refine ⟨?_, rfl⟩
    have hge := hj.ge (by omega)
    have hle' := hj.le
    by_contra hne
    have hp := hj.passes (by omega)
    rw [hnone left (by omega) hle'] at hp
    cases hp

/-- The last scan, where the bounds have crossed. -/
theorem Found.eq_right (h : Found f type q left right) (hany : q.anyMatches = true)
    (hlt : q.regionRight < q.regionLeft + 1) : left = q.regionRight ∧ right = q.regionRight := by
  cases h with
  | none h0 =>
    rw [hany] at h0
    cases h0
  | some _ hj => exact ⟨hj.same hlt, rfl⟩

/-- Behind stabs up to the address: the search has found the last of them. -/
theorem Found.finds (h : Found f type q left right) (ho : Ordered f type lo hi)
    (hany : q.anyMatches = true) (hreg : lo ≤ q.regionLeft ∧ q.regionLeft ≤ q.regionRight ∧
      q.regionRight ≤ hi) (ht : OfType f type q.regionLeft = true)
    (hv : (f q.regionLeft).nValue ≤ addr)
    (hnone : ∀ i, q.regionLeft < i → i ≤ q.regionRight → OfType f type i = false)
    (hnext : q.regionRight < hi → OfType f type (q.regionRight + 1) = true ∧
      addr < (f (q.regionRight + 1)).nValue) :
    FindsStab f type lo hi addr left right := by
  obtain ⟨rfl, rfl⟩ := h.eq_left hany hreg.2.1 hnone
  refine ⟨fun _ => ⟨hreg.1, by omega, ht, hv, fun i h1 h2 h3 => ?_⟩, fun _ => ⟨hreg.2.1, hreg.2.2,
    hnone, ?_⟩, fun hn => absurd ⟨_, hreg.1, by omega, ht, hv⟩ hn⟩
  · have hbehind : q.regionRight < i := by
      by_contra hle
      rw [hnone i h1 (by omega)] at h3
      cases h3
    obtain ⟨hn1, hn2⟩ := hnext (by omega)
    have hle := ho (q.regionRight + 1) i (by omega) (by omega) h2 hn1 h3
    rw [BitVec.lt_def] at hn2 ⊢
    rw [BitVec.le_def] at hle
    omega
  · by_cases hr : q.regionRight < hi
    · exact Or.inr (hnext hr).1
    · exact Or.inl (by omega)

/-- No stab of the type has been compared: there is none. -/
theorem Bracket.none (h : Bracket f type addr lo hi false q) (hend : q.r < q.l)
    (hany : q.anyMatches = false) : ∀ i, lo ≤ i → i ≤ hi → OfType f type i = false := by
  have hreg := h.region
  have hr : ¬ q.r < hi := fun hlt => by
    rw [(h.next hlt).1] at hany
    cases hany
  rcases h.left with ⟨-, hn⟩ | hb
  · exact fun i h1 h2 => hn i h1 (by omega)
  · rw [hb.any] at hany
    cases hany

/-- Only stabs behind the address have been compared: the first of them ends the region. -/
theorem Bracket.allBehind (h : Bracket f type addr lo hi false q) (hend : q.r < q.l)
    (hany : q.anyMatches = true) (ho : Ordered f type lo hi)
    (hn : ∀ i, lo ≤ i → i < q.l → OfType f type i = false) :
    (∃ i, lo ≤ i ∧ i ≤ hi ∧ OfType f type i = true) ∧ ¬ SomeBefore f type lo hi addr := by
  have hreg := h.region
  have hlt : q.r < hi := by
    rcases h.any hany with h0 | hb | hlt
    · cases h0
    · have htyped := hb.typed
      rw [hn _ hb.ge hb.lt] at htyped
      cases htyped
    · exact hlt
  obtain ⟨-, ht, hv⟩ := h.next hlt
  refine ⟨⟨q.r + 1, by omega, by omega, ht⟩, ?_⟩
  rintro ⟨i, h1, h2, h3, h4⟩
  have hge : q.r + 1 ≤ i := by
    by_contra hlt'
    rw [hn i h1 (by omega)] at h3
    cases h3
  have hle := ho (q.r + 1) i (by omega) hge h2 ht h3
  rw [BitVec.lt_def] at hv
  rw [BitVec.le_def] at hle h4
  omega

theorem not_findsStab_of_behind (hsome : SomeBefore f type lo hi addr) {i : Int} (h1 : left < i)
    (h2 : i ≤ hi) (h3 : OfType f type i = true) (h4 : (f i).nValue ≤ addr) :
    ¬ FindsStab f type lo hi addr left right := by
  intro h
  obtain ⟨-, -, -, -, hlast⟩ := h.last hsome
  exact absurd (hlast i h1 h2 h3) (BitVec.not_lt.mpr h4)

/-- Some stab of [lo, hi] is of the type. -/
def SomeOfType (f : Int → Stab) (type : Byte) (lo hi : Int) : Prop :=
  ∃ i, lo ≤ i ∧ i ≤ hi ∧ OfType f type i = true

theorem Bracket.no_hit (h : Bracket f type a l₀ r₀ any₀ q) (hend : q.r < q.l) :
    ¬ FirstHit f type a l₀ r₀ m r := by
  intro hit
  have := ((h.hits m r).mp hit).region
  omega

theorem Bracket.first_iff (h : Bracket f type addr lo hi false q) (hend : q.r < q.l)
    (hf : Found f type q left right) (ho : Ordered f type lo hi) :
    FindsStab f type lo hi addr left right ↔
      (SomeOfType f type lo hi → SomeBefore f type lo hi addr) := by
  have hreg := h.region
  have hright := h.right
  cases hany : q.anyMatches with
  | false =>
    have hnone := h.none hend hany
    have hno : ¬ SomeBefore f type lo hi addr := by
      rintro ⟨i, h1, h2, h3, -⟩
      rw [hnone i h1 h2] at h3
      cases h3
    refine ⟨fun _ => ?_, fun _ => ⟨fun hs => absurd hs hno, fun hs => absurd hs hno, fun _ => ?_⟩⟩
    · rintro ⟨i, h1, h2, h3⟩
      rw [hnone i h1 h2] at h3
      cases h3
    · cases hf with
      | none _ => omega
      | some htrue _ =>
        rw [hany] at htrue
        cases htrue
  | true =>
    rcases h.left with ⟨hl, hn⟩ | hb
    · obtain ⟨hsome, hno⟩ := h.allBehind hend hany ho hn
      refine ⟨fun hfind => ?_, fun himp => absurd (himp hsome) hno⟩
      have hmissing := hfind.missing hno
      by_cases hle : q.regionLeft ≤ q.regionRight
      · obtain ⟨rfl, rfl⟩ := hf.eq_left hany hle fun i h1 h2 => hn i (by omega) (by omega)
        omega
      · obtain ⟨rfl, rfl⟩ := hf.eq_right hany (by omega)
        omega
    · have hge := hb.ge
      have hlt := hb.lt
      have hle := BitVec.le_of_lt hb.value
      refine ⟨fun _ _ => ⟨_, hge, by omega, hb.typed, hle⟩, fun _ => ?_⟩
      refine hf.finds ho hany ⟨hge, by omega, by omega⟩ hb.typed hle
        (fun i h1 h2 => hb.last i h1 (by omega)) fun hlt' => ?_
      rw [hright]
      exact (h.next (by omega)).2

theorem Bracket.second_finds (h : Bracket f type (addr + 1) m r true q) (hend : q.r < q.l)
    (hne : addr ≠ 0xFFFFFFFF) (hit : FirstHit f type addr lo hi m r)
    (hr : r < hi → OfType f type (r + 1) = true ∧ addr < (f (r + 1)).nValue)
    (hf : Found f type q left right) (ho : Ordered f type lo hi) :
    FindsStab f type lo hi addr left right := by
  obtain ⟨h1, h2, h3, ht, hv⟩ := hit.mem
  have hreg := h.region
  have hright := h.right
  have hany := h.stays rfl
  have hnext : q.r < hi → OfType f type (q.r + 1) = true ∧ addr < (f (q.r + 1)).nValue := by
    intro hlt
    by_cases hqr : q.r < r
    · obtain ⟨-, hn1, hn2⟩ := h.next hqr
      exact ⟨hn1, BitVec.lt_trans ((lt_succ_iff hne).mpr (BitVec.le_refl _)) hn2⟩
    · rw [show q.r = r by omega] at hlt ⊢
      exact hr hlt
  rcases h.left with ⟨hl, hn⟩ | hb
  · -- the stab hit itself lies before the region
    have hm : q.l = m := by
      by_contra hml
      rw [hn m (Int.le_refl m) (by omega)] at ht
      cases ht
    obtain ⟨-, -, hv'⟩ := h.next (by omega)
    rw [show q.r + 1 = m by omega, hv] at hv'
    exact absurd (BitVec.lt_trans ((lt_succ_iff hne).mpr (BitVec.le_refl _)) hv') (BitVec.lt_irrefl _)
  · have hge := hb.ge
    have hlt := hb.lt
    refine hf.finds ho hany ⟨by omega, by omega, by omega⟩ hb.typed
      ((lt_succ_iff hne).mp hb.value) (fun i h1 h2 => hb.last i h1 (by omega)) fun hlt' => ?_
    rw [hright]
    exact hnext (by omega)

theorem Wrapped.found (h : Wrapped f type m hi q) (hend : q.r < q.l) (hf : Found f type q left right) :
    left = m - 1 ∧ right = m - 1 := by
  have hreg := h.region
  have hl := h.l
  have hleft := h.left
  have hright := h.right
  have hq := hf.eq_right h.any (by omega)
  omega

theorem Beyond.found (h : Beyond f m hi q) (hf : Found f type q left right) : m ≤ left := by
  have hreg := h.region
  have hleft := h.left
  have hright := h.right
  cases hf with
  | none h0 =>
    rw [h.any] at h0
    cases h0
  | some _ hj =>
    by_cases hlt : q.regionRight < q.regionLeft + 1
    · have := hj.same hlt
      omega
    · have := hj.ge (by omega)
      omega

/-- stab_binsearch does its work exactly when some stab of the type lies before the address if any
is of the type, and its hits do no harm. -/
theorem Phase.finds_iff (h : Phase f type lo hi addr q) (hend : q.r < q.l)
    (hf : Found f type q left right) (ho : Ordered f type lo hi) :
    FindsStab f type lo hi addr left right ↔
      (SomeOfType f type lo hi → SomeBefore f type lo hi addr) ∧ HitsHarmlessly f type lo hi addr := by
  have hbefore : ∀ {m r}, FirstHit f type addr lo hi m r → SomeBefore f type lo hi addr := by
    intro m r hit
    obtain ⟨h1, h2, h3, ht, hv⟩ := hit.mem
    exact ⟨m, h1, by omega, ht, by rw [hv]; exact BitVec.le_refl _⟩
  cases h with
  | first h =>
    rw [h.first_iff hend hf ho]
    exact ⟨fun himp => ⟨himp, fun m r hit => absurd hit (h.no_hit hend)⟩, And.left⟩
  | second hne hit hr h =>
    refine ⟨fun _ => ⟨fun _ => hbefore hit, fun m r hit' => ?_⟩,
      fun _ => h.second_finds hend hne hit hr hf ho⟩
    obtain ⟨rfl, rfl⟩ := hit.unique hit'
    exact ⟨hne, fun m' r' hit'' => absurd hit'' (h.no_hit hend)⟩
  | wrapped hlast hit h =>
    obtain ⟨h1, h2, h3, ht, hv⟩ := hit.mem
    obtain ⟨rfl, -⟩ := h.found hend hf
    constructor
    · exact fun hfind => absurd hfind (not_findsStab_of_behind (hbefore hit) (by omega) (by omega) ht
        (by rw [hv]; exact BitVec.le_refl _))
    · exact fun hh => absurd hlast (hh.2 _ _ hit).1
  | @wrappedSecond m r m' r' hlast hit hit' h =>
    obtain ⟨h1, h2, h3, ht, hv⟩ := hit.mem
    obtain ⟨h1', h2', h3', ht', hv'⟩ := hit'.mem
    obtain ⟨rfl, rfl⟩ := h.found hend hf
    have hne : addr ≠ 0xFFFFFFFF := by
      rw [hlast]
      decide
    have hmm : m ≠ m' := by
      rintro rfl
      rw [hv] at hv'
      exact absurd ((lt_succ_iff hne).mpr (BitVec.le_refl addr)) (by rw [← hv']; exact BitVec.lt_irrefl _)
    constructor
    · intro hfind
      refine ⟨fun _ => hbefore hit, fun m₁ r₁ hit₁ => ?_⟩
      obtain ⟨rfl, rfl⟩ := hit.unique hit₁
      refine ⟨hne, fun m₂ r₂ hit₂ => ?_⟩
      obtain ⟨rfl, rfl⟩ := hit'.unique hit₂
      obtain ⟨-, -, htyped, hvalue, -⟩ := hfind.last (hbefore hit)
      have hge := ho m₁ (m₂ - 1) h1 (by omega) (by omega) ht htyped
      rw [hv] at hge
      exact ⟨hlast, htyped, BitVec.le_antisymm hvalue hge⟩
    · rintro ⟨-, hh⟩
      obtain ⟨-, htyped, hvalue⟩ := (hh m r hit).2 m' r' hit'
      have hnext : OfType f type (m' - 1 + 1) = true := by rwa [Int.sub_add_cancel]
      refine ⟨fun _ => ⟨by omega, by omega, htyped, by rw [hvalue]; exact BitVec.le_refl _,
        fun i hi1 hi2 hi3 => ?_⟩, fun _ => ⟨Int.le_refl _, by omega,
        fun i hi1 hi2 => absurd hi1 (by omega), Or.inr hnext⟩, fun hn => absurd (hbefore hit) hn⟩
      have hle := ho m' i (by omega) (by omega) hi2 ht' hi3
      rw [hv'] at hle
      exact (succ_le_iff hne).mp hle
  | @beyond m r m' r' hne hne' hit hit' h =>
    obtain ⟨h1, h2, h3, ht, hv⟩ := hit.mem
    obtain ⟨h1', h2', h3', ht', hv'⟩ := hit'.mem
    have hge := h.found hf
    constructor
    · intro hfind
      obtain ⟨-, hleft, htyped, hvalue, -⟩ := hfind.last (hbefore hit)
      have hle := ho m' left (by omega) hge hleft ht' htyped
      rw [hv'] at hle
      exact absurd ((succ_le_iff hne).mp hle) (BitVec.not_lt.mpr hvalue)
    · exact fun hh => absurd ((hh.2 _ _ hit).2 _ _ hit').1 hne'

/-- For every symbol table and every region in it whose stabs of the type are ordered:
stab_binsearch returns, and has found what it should exactly when some stab of the type does not lie
behind the address, if any is of the type, and its hits do no harm. -/
theorem stabBinsearch_finds_iff (d : DebugTables) (hlo : 0 ≤ lo) (hle : lo ≤ hi)
    (hhi : hi < d.stabs.length) (ho : Ordered d.entry type lo hi) :
    ∃ left right, stabBinsearch d.access lo hi type addr () = .ok (left, right) () ∧
      (FindsStab d.entry type lo hi addr left right ↔
        (SomeOfType d.entry type lo hi → SomeBefore d.entry type lo hi addr) ∧
          HitsHarmlessly d.entry type lo hi addr) := by
  have hread : Readable d.access () d.entry lo hi := by
    intro i h1 h2
    exact d.holds (by omega) (by omega)
  obtain ⟨q, left, right, hrun, hphase, hend, hf⟩ := stabBinsearch_rule
    (I := Phase d.entry type lo hi addr) hread
    (fun q h _ => ⟨h.range.1, h.range.2.1⟩) (fun q q' h hq hs => h.step ho hq hs)
    (fun q h => ⟨h.range.2.2.1, h.range.2.2.2⟩) (.first (bracket_start (by omega)))
  exact ⟨left, right, hrun, hphase.finds_iff hend hf ho⟩

theorem ordered_pair (h : (f 0).nValue ≤ (f 1).nValue) : Ordered f type 0 1 := by
  intro i j h1 h2 h3 _ _
  have hi : i = 0 ∨ i = 1 := by omega
  have hj : j = 0 ∨ j = 1 := by omega
  rcases hi with rfl | rfl
  · rcases hj with rfl | rfl
    · exact BitVec.le_refl _
    · exact h
  · rw [show j = 1 by omega]
    exact BitVec.le_refl _

/-- Two source files, at 10 and at 20. -/
def twoFiles : DebugTables := ⟨[⟨1, nSo, 0, 0, 10⟩, ⟨1, nSo, 0, 0, 20⟩], [0], by decide, by decide⟩

theorem stabBinsearch_finds_twoFiles : ∃ left right,
    stabBinsearch twoFiles.access 0 1 nSo 15 () = .ok (left, right) () ∧
      FindsStab twoFiles.entry nSo 0 1 15 left right := by
  have ho : Ordered twoFiles.entry nSo 0 1 := ordered_pair (by decide)
  have hno : ∀ m r, ¬ FirstHit twoFiles.entry nSo 15 0 1 m r := by
    intro m r hit
    obtain ⟨h1, h2, h3, -, hv⟩ := hit.mem
    have hm : m = 0 ∨ m = 1 := by omega
    rcases hm with rfl | rfl
    · exact absurd hv (by decide)
    · exact absurd hv (by decide)
  obtain ⟨left, right, hrun, hiff⟩ : ∃ left right,
      stabBinsearch twoFiles.access 0 1 nSo 15 () = .ok (left, right) () ∧ _ :=
    stabBinsearch_finds_iff twoFiles (by decide) (by decide) (by decide) ho
  exact ⟨left, right, hrun, hiff.mpr ⟨fun _ => ⟨0, by decide, by decide, by decide, by decide⟩,
    fun m r hit => absurd hit (hno m r)⟩⟩

/-- Two source files, at 10 and at 11. -/
def closeFiles : DebugTables := ⟨[⟨1, nSo, 0, 0, 10⟩, ⟨1, nSo, 0, 0, 11⟩], [0], by decide, by decide⟩

/-- Looking for 10, the search goes on to the file at 11; looking for 9, it leaves a region that is
not empty, below the array. -/
theorem not_stabBinsearch_finds :
    Ordered closeFiles.entry nSo 0 1 ∧
    stabBinsearch closeFiles.access 0 1 nSo 10 () = .ok (1, 1) () ∧
    ¬ FindsStab closeFiles.entry nSo 0 1 10 1 1 ∧
    stabBinsearch closeFiles.access 0 1 nSo 9 () = .ok (-1, -1) () ∧
    ¬ FindsStab closeFiles.entry nSo 0 1 9 (-1) (-1) := by
  refine ⟨ordered_pair (by decide), rfl, fun h => ?_, rfl, fun h => ?_⟩
  · have hbefore : SomeBefore closeFiles.entry nSo 0 1 10 :=
      ⟨0, by decide, by decide, by decide, by decide⟩
    exact absurd (h.last hbefore).2.2.2.1 (by decide)
  · have hno : ¬ SomeBefore closeFiles.entry nSo 0 1 9 := by
      rintro ⟨i, h1, h2, -, hv⟩
      have hi : i = 0 ∨ i = 1 := by omega
      rcases hi with rfl | rfl
      · exact absurd hv (by decide)
      · exact absurd hv (by decide)
    exact absurd (h.missing hno) (by decide)

end Jos
