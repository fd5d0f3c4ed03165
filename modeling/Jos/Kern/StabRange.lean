import Jos.Kern.StabSearch
import Jos.Library.Simulation

/-! stab_binsearch ends, and stays in its region, whatever the stabs are. -/
namespace Jos

open Prog

section fence

variable {ε σ α : Type}

/-- A read that stops outside [lo, hi]. -/
def fenced (why : Int → ε) (lo hi : Int) (get : Int → Prog ε σ α) (m : Int) : Prog ε σ α := do
  check (why m) (lo ≤ m ∧ m ≤ hi)
  get m

/-- The table, no stab of which can be read outside [lo, hi]. -/
def SymTables.within (t : SymTables ε σ) (why : Int → ε) (lo hi : Int) : SymTables ε σ :=
  { t with
    nStrx := fenced why lo hi t.nStrx
    nType := fenced why lo hi t.nType
    nDesc := fenced why lo hi t.nDesc
    nValue := fenced why lo hi t.nValue }

variable {t t' : SymTables ε σ} {s : σ} {f : Int → Stab} {type : Byte} {lo hi l r : Int} {why : Int → ε}
  {get : Int → Prog ε σ α} {m : Int} {addr : Word} {q : Search} {rounds : Nat}

theorem fenced_apply (h : lo ≤ m) (h' : m ≤ hi) : fenced why lo hi get m s = get m s := by
  rw [fenced, bind_ok (check_true ⟨h, h'⟩ s)]

theorem fenced_simulates : (Sim.always Eq).Simulates (fenced why lo hi get m) (get m) :=
  Sim.simulates_check (Sim.simulates_self (get m))

/-- What can be read inside the fence still can. -/
theorem Readable.within (h : Readable t s f lo hi) : Readable (t.within why lo hi) s f lo hi := by
  intro i h1 h2
  have hi := h i h1 h2
  exact ⟨(fenced_apply h1 h2).trans hi.strx, (fenced_apply h1 h2).trans hi.type,
    (fenced_apply h1 h2).trans hi.desc, (fenced_apply h1 h2).trans hi.value⟩

variable {S : Sim σ σ}

theorem binsearchLoop_simulates (htype : ∀ m, S.Simulates (t.nType m) (t'.nType m))
    (hvalue : ∀ m, S.Simulates (t.nValue m) (t'.nValue m)) :
    S.Simulates (binsearchLoop t type rounds q) (binsearchLoop t' type rounds q) := by
  have htest : ∀ m, S.Simulates (t.hasType type m) (t'.hasType type m) :=
    fun m => (htype m).bind fun _ => Sim.simulates_pure _
  induction rounds generalizing q with
  | zero => exact Sim.simulates_stop _
  | succ rounds ih =>
    rw [binsearchLoop, binsearchLoop]
    refine Sim.simulates_ite (fun _ => ?_) fun _ => Sim.simulates_pure q
    refine (scanBack_simulates htest).bind fun m => Sim.simulates_ite (fun _ => ih) fun _ => ?_
    exact (hvalue m).bind fun _ => Sim.simulates_ite (fun _ => ih) fun _ =>
      Sim.simulates_ite (fun _ => ih) fun _ => ih

/-- Tables whose types and values are read alike are searched alike. -/
theorem stabBinsearch_simulates (htype : ∀ m, S.Simulates (t.nType m) (t'.nType m))
    (hvalue : ∀ m, S.Simulates (t.nValue m) (t'.nValue m)) :
    S.Simulates (stabBinsearch t l r type addr) (stabBinsearch t' l r type addr) := by
  have htest : ∀ m, S.Simulates (t.hasType type m) (t'.hasType type m) :=
    fun m => (htype m).bind fun _ => Sim.simulates_pure _
  rw [stabBinsearch, stabBinsearch]
  refine (binsearchLoop_simulates htype hvalue).bind fun q => Sim.simulates_ite
    (fun _ => Sim.simulates_pure _) fun _ => ?_
  exact (scanBack_simulates htest).bind fun _ => Sim.simulates_pure _

/-- A search that returns inside the fence does the same without it. -/
theorem stabBinsearch_unfenced {x : Int × Int} {u : σ}
    (h : stabBinsearch (t.within why lo hi) l r type addr s = .ok x u) :
    stabBinsearch t l r type addr s = .ok x u := by
  have hsim : (Sim.always Eq).Simulates (stabBinsearch (t.within why lo hi) l r type addr)
      (stabBinsearch t l r type addr) :=
    stabBinsearch_simulates (fun _ => fenced_simulates) fun _ => fenced_simulates
  obtain ⟨v, hv, rfl⟩ := (hsim s x u h).2 trivial s rfl
  exact hv

end fence

/-! The variables of the loop, on unsorted stabs. -/

/-- What holds of the variables between two rounds. -/
structure SearchRange (lo hi : Int) (q : Search) : Prop where
  l : lo ≤ q.l
  r : q.r ≤ hi
  left : lo ≤ q.regionLeft
  right : lo - 1 ≤ q.regionRight ∧ q.regionRight ≤ hi
  unmatched : q.anyMatches = false → q.regionLeft = lo

variable {f : Int → Stab} {type : Byte} {lo hi left right : Int} {addr : Word} {q q' : Search}

theorem searchRange_start (h : lo ≤ hi + 1) : SearchRange lo hi ⟨lo, hi, lo, hi, false, addr⟩ where
  l := Int.le_refl lo
  r := Int.le_refl hi
  left := Int.le_refl lo
  right := ⟨by simp only; omega, Int.le_refl hi⟩
  unmatched := fun _ => rfl

theorem SearchRange.step (h : SearchRange lo hi q) (hq : q.l ≤ q.r) (hs : SearchStep f type q q') :
    SearchRange lo hi q' := by
  obtain ⟨hmid, hmid'⟩ := tdiv_two_mem hq
  have hl := h.l
  have hr := h.r
  cases hs with
  | absent hm hlt => exact ⟨by simp only; omega, h.r, h.left, h.right, h.unmatched⟩
  | low hm hle hv =>
    exact ⟨by simp only; omega, h.r, by simp only; omega, h.right, fun hany => nomatch hany⟩
  | high hm hle hv =>
    have hmr := hm.le hq
    exact ⟨h.l, by simp only; omega, h.left, ⟨by simp only; omega, by simp only; omega⟩,
      fun hany => nomatch hany⟩
  | hit hm hle hv =>
    exact ⟨by simp only; omega, h.r, by simp only; omega, h.right, fun hany => nomatch hany⟩

/-- The region that is left when the loop has ended. -/
theorem SearchRange.found (h : SearchRange lo hi q) (hle : lo ≤ hi + 1) (hf : Found f type q left right) :
    lo - 1 ≤ left ∧ left ≤ right + 1 ∧ right ≤ hi := by
  have hleft := h.left
  have hright := h.right
  cases hf with
  | none hany =>
    have heq := h.unmatched hany
    omega
  | some hany hj =>
    have hjr := LastAt.le hj
    by_cases hlt : q.regionRight < q.regionLeft + 1
    · have hsame := hj.same hlt
      omega
    · have hge := hj.ge (by omega)
      omega

/-- For every symbol table, region of it, type and address: stab_binsearch returns, it reads no stab
outside its region, and leaves a region that it may. -/
theorem stabBinsearch_stays (d : DebugTables) (type : Byte) (addr : Word) (hlo : 0 ≤ lo)
    (hle : lo ≤ hi + 1) (hhi : hi < d.stabs.length) :
    ∃ left right, stabBinsearch d.access lo hi type addr () = .ok (left, right) () ∧
      stabBinsearch (d.access.within .badStab lo hi) lo hi type addr () = .ok (left, right) () ∧
      lo - 1 ≤ left ∧ left ≤ right + 1 ∧ right ≤ hi := by
  have hread : Readable d.access () d.entry lo hi := by
    intro i h1 h2
    exact d.holds (by omega) (by omega)
  have hfenced : Readable (d.access.within .badStab lo hi) () d.entry lo hi := hread.within
  have hstart : SearchRange lo hi ⟨lo, hi, lo, hi, false, addr⟩ := searchRange_start hle
  obtain ⟨q, left, right, hrun, hrange, hend, hf⟩ := stabBinsearch_rule (I := SearchRange lo hi) hfenced
    (fun q h _ => ⟨h.l, h.r⟩) (fun q q' h hq (hs : SearchStep d.entry type q q') => h.step hq hs)
    (fun q h => ⟨by have := h.left; omega, h.right.2⟩) hstart
  exact ⟨left, right, stabBinsearch_unfenced hrun, hrun, hrange.found hle hf⟩

/-- Two files out of order, and a key that wraps. -/
def turnedFiles : DebugTables :=
  ⟨[⟨1, nSo, 0, 0, 0xFFFFFFFF⟩, ⟨1, nSo, 0, 0, 5⟩], [0, 97, 0], by decide, by decide⟩

theorem stabBinsearch_stays_turnedFiles : ∃ left right,
    stabBinsearch turnedFiles.access 0 1 nSo 0xFFFFFFFF () = .ok (left, right) () ∧
      stabBinsearch (turnedFiles.access.within .badStab 0 1) 0 1 nSo 0xFFFFFFFF () =
        .ok (left, right) () ∧
      (0 : Int) - 1 ≤ left ∧ left ≤ right + 1 ∧ right ≤ 1 :=
  stabBinsearch_stays turnedFiles nSo 0xFFFFFFFF (by decide) (by decide) (by decide)

end Jos
