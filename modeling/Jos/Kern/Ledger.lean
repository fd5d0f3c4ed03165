import Jos.Library.Chain
import Jos.Library.RefCount
import Jos.Kern.Pmap
import Mathlib.Data.Finset.Sigma
import Mathlib.Data.Finset.Sum
import Mathlib.Data.Finset.Prod

/-! Who refers to which physical page, and when the counts and the free list agree with it. -/
namespace Jos

/-- The page a present entry names. -/
def target (w : Word) : Option Nat := if Has w pteP then some (pgnum w) else none

namespace Kernel

/-- Entry `i` of the page directory in page `d`. -/
def pde (s : Kernel) (d i : Nat) : Word := s.mem d i

/-- Entry `j` of the table behind entry `i` of directory `d`; zero when there is no table. -/
def pte (s : Kernel) (d i j : Nat) : Word :=
  if Has (s.pde d i) pteP then s.mem (pgnum (s.pde d i)) j else 0#32

end Kernel

/-- A place that can name a page: entry `i` of directory `d`, or entry `j` of its table. -/
abbrev Slot := (Σ _ : Nat, Nat) ⊕ (Nat × Nat × Nat)

def names (s : Kernel) : Slot → Option Nat
  | .inl ⟨d, i⟩ => target (s.pde d i)
  | .inr (d, i, j) => target (s.pte d i j)

/-- The holders of references: directories, the entries through which each owns its tables,
references held outside any table, and pages handed out but not referenced yet. -/
structure Ledger where
  dirs : Finset Nat
  own : Nat → Finset Nat
  held : Nat → Nat
  loose : Finset Nat

namespace Ledger

/-- Directory entries below UTOP. -/
def userEntries : Finset Nat := Finset.range 955

def slots (L : Ledger) : Finset Slot :=
  (L.dirs.sigma L.own).disjSum (L.dirs ×ˢ (userEntries ×ˢ Finset.range 1024))

/-- A directory holds one reference of its own. -/
def root (L : Ledger) (p : Nat) : Nat := if p ∈ L.dirs then 1 else 0

/-- One more reference to `p` is held outside the tables. -/
def hold (L : Ledger) (p : Nat) : Ledger := { L with held := Function.update L.held p (L.held p + 1) }

def loosen (L : Ledger) (p : Nat) : Ledger := { L with loose := insert p L.loose }

def settle (L : Ledger) (p : Nat) : Ledger := { L with loose := L.loose.erase p }

/-- Page `p` becomes a directory, owning tables below UTOP only. -/
def addDir (L : Ledger) (p : Nat) : Ledger :=
  { L with dirs := insert p L.dirs, own := Function.update L.own p userEntries }

def dropDir (L : Ledger) (p : Nat) : Ledger := { L with dirs := L.dirs.erase p }

variable {L : Ledger} {d i j p q : Nat}

@[simp] theorem mem_dirs_addDir : d ∈ (L.addDir p).dirs ↔ d = p ∨ d ∈ L.dirs := by
  simp [addDir]

@[simp] theorem mem_dirs_dropDir : d ∈ (L.dropDir p).dirs ↔ d ≠ p ∧ d ∈ L.dirs := by
  simp [dropDir]

theorem own_addDir_self : (L.addDir p).own p = userEntries := by
  simp [addDir]

theorem own_addDir_of_ne (h : d ≠ p) : (L.addDir p).own d = L.own d := by
  simp [addDir, h]

theorem mem_userEntries : i ∈ userEntries ↔ i < 955 := by
  simp [userEntries]

@[simp] theorem inl_mem_slots : Sum.inl ⟨d, i⟩ ∈ L.slots ↔ d ∈ L.dirs ∧ i ∈ L.own d := by
  simp [slots]

@[simp] theorem inr_mem_slots :
    Sum.inr (d, i, j) ∈ L.slots ↔ d ∈ L.dirs ∧ i < 955 ∧ j < 1024 := by
  simp [slots, userEntries]

@[simp] theorem slots_hold : (L.hold p).slots = L.slots := rfl

@[simp] theorem slots_loosen : (L.loosen p).slots = L.slots := rfl

@[simp] theorem slots_settle : (L.settle p).slots = L.slots := rfl

@[simp] theorem root_hold : (L.hold p).root q = L.root q := rfl

@[simp] theorem root_loosen : (L.loosen p).root q = L.root q := rfl

@[simp] theorem root_settle : (L.settle p).root q = L.root q := rfl

theorem root_of_mem (h : p ∈ L.dirs) : L.root p = 1 := if_pos h

theorem root_of_notMem (h : p ∉ L.dirs) : L.root p = 0 := if_neg h

theorem held_hold : (L.hold p).held q = L.held q + if q = p then 1 else 0 := by
  by_cases h : q = p <;> simp [hold, Function.update, h]

theorem settle_loosen (h : p ∉ L.loose) : (L.loosen p).settle p = L := by
  cases L
  simp_all [loosen, settle]

end Ledger

/-- The references the tables and directories of `L` hold on a page. -/
def refs (s : Kernel) (L : Ledger) (p : Nat) : Nat := RefCount.refs L.slots (names s) p

/-- The allocator's invariant: the counts are exact, the free list holds exactly the
unreferenced pages nobody was handed, and every owned table belongs to one entry only. -/
structure Balanced (s : Kernel) (L : Ledger) (fl : List Nat) : Prop where
  npages_le : s.npages ≤ 65536
  chain : Chain (fun p => (s.pages p).ppLink) s.pageFreeList fl
  mem_free : ∀ p, p ∈ fl ↔ p < s.npages ∧ (s.pages p).ppRef = 0 ∧ p ∉ L.loose
  loose : ∀ p ∈ L.loose, p < s.npages ∧ (s.pages p).ppRef = 0
  link_null : ∀ p < s.npages, p ∉ fl → (s.pages p).ppLink = none
  count : ∀ p < s.npages, (s.pages p).ppRef.toNat = refs s L p + L.root p + L.held p
  dir_lt : ∀ d ∈ L.dirs, d < s.npages
  own_user : ∀ d ∈ L.dirs, ∀ i < 955, i ∈ L.own d
  table : ∀ d ∈ L.dirs, ∀ i ∈ L.own d, ∀ t, target (s.pde d i) = some t → t < s.npages ∧ t ∉ L.dirs
  table_inj : ∀ d ∈ L.dirs, ∀ i ∈ L.own d, ∀ d' ∈ L.dirs, ∀ i' ∈ L.own d', ∀ t,
    target (s.pde d i) = some t → target (s.pde d' i') = some t → d = d' ∧ i = i'
  mapped : ∀ d ∈ L.dirs, ∀ i < 955, ∀ j < 1024, ∀ p, target (s.pte d i j) = some p → p < s.npages

section target

variable {w : Word} {p : Nat}

theorem target_eq_some : target w = some p ↔ Has w pteP ∧ pgnum w = p := by
  unfold target
  split <;> simp_all

theorem target_eq_none : target w = none ↔ ¬ Has w pteP := by
  unfold target
  split <;> simp_all

@[simp] theorem target_zero : target 0#32 = none := by
  simp [target_eq_none]

/-- An entry built from a page and flags that include PTE_P names the page. -/
theorem target_entry {f : Word} (hp : p < 2 ^ 20) (hf : f.toNat < 4096) (hP : Has f pteP) :
    target (page2pa p ||| f) = some p := by
  rw [target_eq_some, has_entry (by decide), pgnum_entry hp hf]
  exact ⟨hP, rfl⟩

end target

namespace Kernel

variable {s s' : Kernel} {d i j t : Nat} {w : Word}

theorem pte_of_target (h : target (s.pde d i) = some t) : s.pte d i j = s.mem t j := by
  obtain ⟨hP, rfl⟩ := target_eq_some.mp h
  simp [pte, hP]

theorem pte_of_no_table (h : target (s.pde d i) = none) : s.pte d i j = 0#32 := by
  simp [pte, target_eq_none.mp h]

theorem pte_congr (hd : s'.pde d i = s.pde d i)
    (ht : ∀ t, target (s.pde d i) = some t → s'.mem t j = s.mem t j) :
    s'.pte d i j = s.pte d i j := by
  cases h : target (s.pde d i) with
  | none => rw [pte_of_no_table h, pte_of_no_table (hd ▸ h)]
  | some t => rw [pte_of_target h, pte_of_target (hd ▸ h), ht t h]

end Kernel

namespace Balanced

variable {s s' : Kernel} {L : Ledger} {fl : List Nat} {d i j p q t : Nat} {w : Word}

theorem page_lt (h : Balanced s L fl) (hp : p < s.npages) : p < 2 ^ 20 := by
  have := h.npages_le
  omega

theorem free_lt (h : Balanced s L fl) (hp : p ∈ fl) : p < s.npages := ((h.mem_free p).mp hp).1

theorem free_ref (h : Balanced s L fl) (hp : p ∈ fl) : (s.pages p).ppRef = 0 :=
  ((h.mem_free p).mp hp).2.1

theorem nodup (h : Balanced s L fl) : fl.Nodup := h.chain.nodup

/-- A page with no references is no directory, no owned table and mapped nowhere. -/
theorem unreferenced (h : Balanced s L fl) (hp : p < s.npages) (hr : (s.pages p).ppRef = 0) :
    refs s L p = 0 ∧ p ∉ L.dirs ∧ L.held p = 0 := by
  have hc := h.count p hp
  rw [hr] at hc
  simp only [BitVec.ofNat_eq_ofNat, BitVec.toNat_ofNat, Nat.zero_mod] at hc
  refine ⟨by omega, ?_, by omega⟩
  intro hd
  rw [Ledger.root_of_mem hd] at hc
  omega

theorem free_dir (h : Balanced s L fl) (hp : p ∈ fl) : p ∉ L.dirs :=
  (h.unreferenced (h.free_lt hp) (h.free_ref hp)).2.1

theorem names_ne_of_refs (hr : refs s L p = 0) {x : Slot} (hx : x ∈ L.slots) :
    names s x ≠ some p :=
  RefCount.refs_eq_zero_iff.mp hr x hx

theorem table_ne_of_refs (hr : refs s L p = 0) (hd : d ∈ L.dirs) (hi : i ∈ L.own d) :
    target (s.pde d i) ≠ some p :=
  names_ne_of_refs (x := .inl ⟨d, i⟩) hr (by simp [hd, hi])

theorem refs_congr (h : ∀ x ∈ L.slots, names s' x = names s x) : refs s' L p = refs s L p :=
  RefCount.refs_congr h

/-- Only the allocator's own variables and the owned tables matter. -/
theorem congr (h : Balanced s L fl) (hn : s'.npages = s.npages) (hp : s'.pages = s.pages)
    (hf : s'.pageFreeList = s.pageFreeList)
    (hpde : ∀ d ∈ L.dirs, ∀ i ∈ L.own d, s'.pde d i = s.pde d i)
    (hpte : ∀ d ∈ L.dirs, ∀ i < 955, ∀ j < 1024, s'.pte d i j = s.pte d i j) :
    Balanced s' L fl := by
  have hnames : ∀ x ∈ L.slots, names s' x = names s x := by
    rintro (⟨d, i⟩ | ⟨d, i, j⟩) hx
    · rw [Ledger.inl_mem_slots] at hx
      simp only [names, hpde d hx.1 i hx.2]
    · rw [Ledger.inr_mem_slots] at hx
      simp only [names, hpte d hx.1 i hx.2.1 j hx.2.2]
  refine ⟨hn ▸ h.npages_le, ?_, ?_, ?_, ?_, ?_, ?_, h.own_user, ?_, ?_, ?_⟩
  · rw [hp, hf]; exact h.chain
  · rw [hn, hp]; exact h.mem_free
  · rw [hn, hp]; exact h.loose
  · rw [hn, hp]; exact h.link_null
  · intro p hlt
    rw [hp, refs_congr hnames]
    exact h.count p (hn ▸ hlt)
  · rw [hn]; exact h.dir_lt
  · intro d hd i hi t ht
    rw [hn]
    exact h.table d hd i hi t (hpde d hd i hi ▸ ht)
  · intro d hd i hi d' hd' i' hi' t ht ht'
    exact h.table_inj d hd i hi d' hd' i' hi' t (hpde d hd i hi ▸ ht) (hpde d' hd' i' hi' ▸ ht')
  · intro d hd i hi j hj p ht
    rw [hn]
    exact h.mapped d hd i hi j hj p (hpte d hd i hi j hj ▸ ht)

theorem of_eq (h : Balanced s L fl) (hn : s'.npages = s.npages) (hp : s'.pages = s.pages)
    (hf : s'.pageFreeList = s.pageFreeList) (hm : s'.mem = s.mem) : Balanced s' L fl := by
  have hpde : s'.pde = s.pde := by funext d i; simp only [Kernel.pde, hm]
  have hpte : s'.pte = s.pte := by funext d i j; simp only [Kernel.pte, hpde, hm]
  exact h.congr hn hp hf (by simp [hpde]) (by simp [hpte])

end Balanced

end Jos
