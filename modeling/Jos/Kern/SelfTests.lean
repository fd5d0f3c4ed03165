import Jos.Kern.MemInit
import Jos.Kern.BootSpec
import Mathlib.Data.Fin.VecNotation
import Mathlib.Data.Nat.SuccPred

/-! The self-tests of mem_init, run on the three pages they take from the free list. -/
namespace Jos

open Prog

/-- What the self-tests touch: the head of the free list, three pages with their contents,
kern_pgdir, and the events issued. -/
structure Bench where
  head : Option Nat
  info : Fin 3 → PageInfo
  words : Fin 3 → Nat → Word
  dir : Nat → Word
  log : List HwEvent

namespace Bench

/-- The kernel `s` with the bench in place of its own pages `p 0`, `p 1` and `p 2`. -/
noncomputable def at_ (b : Bench) (s : Kernel) (p : Fin 3 → Nat) : Kernel :=
  { s with
    pageFreeList := b.head
    pages := Function.extend p b.info s.pages
    mem := Function.extend p b.words (Function.update s.mem s.kernPgdir b.dir)
    log := b.log }

variable (b : Bench) (p : Fin 3 → Nat) (i : Fin 3)

def setHead (o : Option Nat) : Bench := { b with head := o }

def setInfo (x : PageInfo) : Bench := { b with info := Function.update b.info i x }

/-- page_alloc of page `i`, the head of the free list. -/
def take : Bench := (b.setHead (b.info i).ppLink).setInfo i { b.info i with ppLink := none }

/-- page_free of page `i`. -/
def push : Bench := (b.setInfo i { b.info i with ppLink := b.head }).setHead (some (p i))

def setRef (r : BitVec 16) : Bench := b.setInfo i { b.info i with ppRef := r }

def storeWord (j : Nat) (w : Word) : Bench :=
  { b with
    words := Function.update b.words i (Function.update (b.words i) j w)
    log := b.log ++ [.store (p i) j w] }

def storeDir (d j : Nat) (w : Word) : Bench :=
  { b with dir := Function.update b.dir j w, log := b.log ++ [.store d j w] }

def fill (n : Nat) (w : Word) : Bench :=
  { b with
    words := Function.update b.words i fun j => if j < n then w else b.words i j
    log := b.log ++ (List.range n).map fun j => .store (p i) j w }

def emit (e : HwEvent) : Bench := { b with log := b.log ++ [e] }

end Bench

/-- The directory entry pgdir_walk makes for the page table in page `q`. -/
def tableEntry (q : Nat) : Word := page2pa q ||| pteP ||| pteU ||| pteW

/-- The table entry page_insert makes for page `q`. -/
def pageEntry (q : Nat) (perm : Word) : Word := pteAddr (page2pa q) ||| perm ||| pteP

namespace Bench

variable (b : Bench) (p : Fin 3 → Nat) (d : Nat) (i k : Fin 3) (va perm : Word)

/-- Page `i` becomes the page table of entry `j` of the directory. -/
def table (j : Nat) : Bench :=
  (((b.fill p i 1024 0#32).take i).setRef i 1).storeDir d j (tableEntry (p i))

theorem words_table {j n : Nat} (hn : n < 1024) : (b.table p d i j).words i n = 0#32 := by
  have hw : (b.table p d i j).words i = fun j => if j < 1024 then 0#32 else b.words i j :=
    Function.update_self _ _ _
  rw [hw]
  exact if_pos hn

/-- page_decref of page `i`, which has `r` references. -/
def drop (r : BitVec 16) : Bench :=
  match r == 1 with
  | true => (b.setRef i (r - 1)).push p i
  | false => b.setRef i (r - 1)

/-- page_remove of page `k`, which has `r` references, mapped through the table in page `i`. -/
def unmap (r : BitVec 16) : Bench :=
  ((b.drop p k r).storeWord p i (ptx va) 0#32).emit (.invlpg va)

/-- page_insert of page `k`, which has `r` references, at an address that maps nothing. -/
def insert (r : BitVec 16) : Bench :=
  (b.setRef k (r + 1)).storeWord p i (ptx va) (pageEntry (p k) perm)

/-- page_insert of page `k`, which has `r` references, where page `l` is mapped, which then
has `r'`. -/
def replace (l : Fin 3) (r r' : BitVec 16) : Bench :=
  ((b.setRef k (r + 1)).unmap p i l va r').storeWord p i (ptx va) (pageEntry (p k) perm)

variable {b p d i k va perm} {j n : Nat} {w : Word} {r : BitVec 16} {o : Option Nat} {l : Fin 3}
  {c : BitVec 16}

@[simp] theorem log_take : (b.take i).log = b.log := rfl

@[simp] theorem log_push : (b.push p i).log = b.log := rfl

@[simp] theorem log_setRef : (b.setRef i r).log = b.log := rfl

@[simp] theorem log_fill :
    (b.fill p i n w).log = b.log ++ (List.range n).map fun j => .store (p i) j w := rfl

@[simp] theorem log_storeWord : (b.storeWord p i j w).log = b.log ++ [.store (p i) j w] := rfl

@[simp] theorem log_storeDir : (b.storeDir d j w).log = b.log ++ [.store d j w] := rfl

@[simp] theorem log_table : (b.table p d i j).log =
    b.log ++ ((List.range 1024).map fun j => .store (p i) j 0#32) ++
      [.store d j (tableEntry (p i))] := rfl

@[simp] theorem log_unmap : (b.unmap p i k va r).log =
    b.log ++ [.store (p i) (ptx va) 0#32, .invlpg va] := by
  have hdrop : (b.drop p k r).log = b.log := by
    unfold drop
    split <;> rfl
  change ((b.drop p k r).log ++ [_]) ++ [_] = _
  rw [hdrop, List.append_assoc]
  rfl

@[simp] theorem log_insert : (b.insert p i k va perm r).log =
    b.log ++ [.store (p i) (ptx va) (pageEntry (p k) perm)] := rfl

@[simp] theorem log_replace : (b.replace p i k va perm l r c).log =
    b.log ++ [.store (p i) (ptx va) 0#32, .invlpg va,
      .store (p i) (ptx va) (pageEntry (p k) perm)] := by
  rw [replace, log_storeWord, log_unmap, log_setRef, List.append_assoc]
  rfl

end Bench

/-- Three different pages, none of them kern_pgdir. -/
structure Trio (s : Kernel) (p : Fin 3 → Nat) : Prop where
  inj : Function.Injective p
  ne_dir : ∀ i, p i ≠ s.kernPgdir
  lt : ∀ i, p i < s.npages
  npages_le : s.npages ≤ 65536

theorem ext_three {α : Type} {v w : Fin 3 → α} (h0 : v 0 = w 0) (h1 : v 1 = w 1)
    (h2 : v 2 = w 2) : v = w := by
  funext i
  match i with
  | 0 => exact h0
  | 1 => exact h1
  | 2 => exact h2

section extend

variable {α : Type} {p : Fin 3 → Nat} {v : Fin 3 → α} {g : Nat → α} {q : Nat} {x : α}

theorem update_extend (hp : Function.Injective p) (i : Fin 3) :
    Function.update (Function.extend p v g) (p i) x =
      Function.extend p (Function.update v i x) g := by
  funext q
  by_cases hq : ∃ k, p k = q
  · obtain ⟨k, rfl⟩ := hq
    rw [hp.extend_apply]
    by_cases hk : k = i
    · simp [hk]
    · rw [Function.update_of_ne (fun he => hk (hp he)), Function.update_of_ne hk, hp.extend_apply]
  · have hne : q ≠ p i := fun he => hq ⟨i, he.symm⟩
    rw [Function.update_of_ne hne, Function.extend_apply' _ _ _ hq, Function.extend_apply' _ _ _ hq]

theorem update_extend_off (hq : ∀ i, p i ≠ q) :
    Function.update (Function.extend p v g) q x = Function.extend p v (Function.update g q x) := by
  have hq' : ¬ ∃ k, p k = q := by
    rintro ⟨k, hk⟩
    exact hq k hk
  funext r
  by_cases hr : ∃ k, p k = r
  · have hne : r ≠ q := by rintro rfl; exact hq' hr
    obtain ⟨k, rfl⟩ := hr
    rw [Function.update_of_ne hne]
    simp [Function.extend, show ∃ a, p a = p k from ⟨k, rfl⟩]
  · rw [Function.extend_apply' _ _ _ hr]
    by_cases he : r = q
    · simp [he]
    · rw [Function.update_of_ne he, Function.update_of_ne he, Function.extend_apply' _ _ _ hr]

end extend

namespace Kernel

variable (s : Kernel) (p n j : Nat) (w : Word)

theorem store_mem_eq : (s.store p j w).mem =
    Function.update s.mem p (Function.update (s.mem p) j w) := by
  funext q k
  rw [mem_store]
  by_cases hq : q = p
  · subst hq
    by_cases hk : k = j <;> simp [hk]
  · simp [hq]

theorem fill_mem_eq : (s.fill p n w).mem =
    Function.update s.mem p fun j => if j < n then w else s.mem p j := by
  funext q k
  rw [mem_fill]
  by_cases hq : q = p
  · subst hq
    simp
  · simp [hq]

end Kernel

section checkVa2pa

variable {s : Kernel} {d t : Nat} {va : Word}

theorem checkVa2pa_noTable (h : target (s.mem d (pdx va)) = none) :
    checkVa2pa d va s = .ok noPage s := by
  rw [checkVa2pa, bind_ok (read_apply s), if_pos (target_eq_none.mp h)]
  rfl

theorem checkVa2pa_table (h : target (s.mem d (pdx va)) = some t) (ht : t < s.npages) :
    checkVa2pa d va s =
      .ok (if Has (s.mem t (ptx va)) pteP then pteAddr (s.mem t (ptx va)) else noPage) s := by
  obtain ⟨hP, rfl⟩ := target_eq_some.mp h
  have hk : kaddr (pteAddr (s.mem d (pdx va))) s = .ok (pgnum (s.mem d (pdx va))) s := by
    have hk := kaddr_ok (s := s) (w := pteAddr (s.mem d (pdx va))) (by rwa [pgnum_pteAddr])
    rwa [pgnum_pteAddr] at hk
  rw [checkVa2pa, bind_ok (read_apply s), if_neg (not_not.mpr hP), bind_ok hk,
    bind_ok (read_apply s)]
  by_cases hP' : Has (s.mem (pgnum (s.mem d (pdx va))) (ptx va)) pteP
  · rw [if_pos hP', if_neg (not_not.mpr hP')]
    rfl
  · rw [if_neg hP', if_pos hP']
    rfl

theorem assertVa2pa_ok {pa : Word} (h : checkVa2pa d va s = .ok pa s) :
    assertVa2pa d va pa s = .ok () s := by
  rw [assertVa2pa, bind_ok h]
  exact check_true rfl _

end checkVa2pa

namespace Trio

variable {s : Kernel} {p : Fin 3 → Nat} {b : Bench} {i k : Fin 3} {j n : Nat} {w va perm : Word}
  {r : BitVec 16} {o : Option Nat}

theorem pages_at (h : Trio s p) (i : Fin 3) : (b.at_ s p).pages (p i) = b.info i :=
  h.inj.extend_apply _ _ _

theorem mem_at (h : Trio s p) (i : Fin 3) : (b.at_ s p).mem (p i) = b.words i :=
  h.inj.extend_apply _ _ _

theorem mem_dir (h : Trio s p) : (b.at_ s p).mem s.kernPgdir = b.dir := by
  have hd : ¬ ∃ i, p i = s.kernPgdir := by
    rintro ⟨i, hi⟩
    exact h.ne_dir i hi
  exact (Function.extend_apply' _ _ _ hd).trans (by simp)

/-- A kernel is a bench in place when the parts the bench has agree and the rest is `s`. -/
theorem at_eq {t : Kernel} (hp : t.pages = (b.at_ s p).pages) (hm : t.mem = (b.at_ s p).mem)
    (hf : t.pageFreeList = b.head) (hl : t.log = b.log)
    (hrest : { t with
      pages := s.pages
      pageFreeList := s.pageFreeList
      mem := s.mem
      log := s.log } = s) : t = b.at_ s p := by
  cases t
  cases s
  simp_all [Bench.at_]

theorem setInfo (h : Trio s p) {t : Kernel} {x : PageInfo} (hrest : t = { b.at_ s p with
    pages := Function.update (b.at_ s p).pages (p i) x }) : t = (b.setInfo i x).at_ s p := by
  subst hrest
  exact at_eq (update_extend h.inj i) rfl rfl rfl rfl

theorem setLink (h : Trio s p) : (b.at_ s p).setLink (p i) o =
    (b.setInfo i { b.info i with ppLink := o }).at_ s p := by
  apply h.setInfo
  rw [Kernel.setLink, h.pages_at]

theorem setRef (h : Trio s p) : (b.at_ s p).setRef (p i) r = (b.setRef i r).at_ s p := by
  apply h.setInfo
  rw [Kernel.setRef, h.pages_at]

theorem setHead : { b.at_ s p with pageFreeList := o } = (b.setHead o).at_ s p := rfl

theorem take (h : Trio s p) : (b.at_ s p).take (p i) = (b.take i).at_ s p := by
  rw [Kernel.take, h.pages_at, setHead, h.setLink]
  rfl

theorem push (h : Trio s p) : (b.at_ s p).push (p i) = (b.push p i).at_ s p := by
  rw [Kernel.push, h.setLink, setHead]
  rfl

theorem incRef (h : Trio s p) :
    (b.at_ s p).incRef (p i) = (b.setRef i ((b.info i).ppRef + 1)).at_ s p := by
  rw [Kernel.incRef, h.setRef, h.pages_at]

theorem storeWord (h : Trio s p) : (b.at_ s p).store (p i) j w = (b.storeWord p i j w).at_ s p := by
  refine at_eq rfl ?_ rfl rfl rfl
  rw [Kernel.store_mem_eq, h.mem_at]
  exact update_extend h.inj i

theorem storeDir (h : Trio s p) :
    (b.at_ s p).store s.kernPgdir j w = (b.storeDir s.kernPgdir j w).at_ s p := by
  refine at_eq rfl ?_ rfl rfl rfl
  rw [Kernel.store_mem_eq, h.mem_dir]
  refine (update_extend_off h.ne_dir).trans ?_
  rw [Function.update_idem]
  rfl

theorem fill (h : Trio s p) : (b.at_ s p).fill (p i) n w = (b.fill p i n w).at_ s p := by
  refine at_eq rfl ?_ rfl rfl rfl
  rw [Kernel.fill_mem_eq, h.mem_at]
  exact update_extend h.inj i

theorem emit {e : HwEvent} : (b.at_ s p).emit e = (b.emit e).at_ s p := rfl

theorem drop (h : Trio s p) (hr : (b.info i).ppRef = r) :
    (b.at_ s p).drop (p i) = (b.drop p i r).at_ s p := by
  unfold Kernel.drop Kernel.decRef
  rw [h.pages_at, hr, h.setRef, h.push]
  by_cases h1 : r = 1
  · subst h1
    rfl
  · have hne : (r == 1) = false := beq_false_of_ne h1
    rw [if_neg h1, Bench.drop, hne]

theorem unmap (h : Trio s p) (hr : (b.info k).ppRef = r) :
    (b.at_ s p).unmap (p i) (ptx va) (p k) va = (b.unmap p i k va r).at_ s p := by
  rw [Kernel.unmap, h.drop hr, h.storeWord, emit, Bench.unmap]

theorem table (h : Trio s p) (hr : (b.info i).ppRef = 0) :
    (b.at_ s p).withTable s.kernPgdir j (p i) = (b.table p s.kernPgdir i j).at_ s p := by
  have hr' : (((b.fill p i 1024 0#32).take i).info i).ppRef = 0 := by
    simp [Bench.take, Bench.setInfo, Bench.setHead, Bench.fill, hr]
  rw [Kernel.withTable, h.fill, h.take, h.incRef, hr']
  exact h.storeDir

theorem page_lt (h : Trio s p) (i : Fin 3) : p i < 2 ^ 20 := by
  have h1 := h.lt i
  have h2 := h.npages_le
  omega

theorem target_tableEntry (h : Trio s p) (i : Fin 3) : target (tableEntry (p i)) = some (p i) := by
  have he : tableEntry (p i) = page2pa (p i) ||| (pteP ||| pteU ||| pteW) := by
    simp only [tableEntry, BitVec.or_assoc]
  rw [he]
  exact target_entry (h.page_lt i) (by decide) (by decide)

theorem target_pageEntry (h : Trio s p) (i : Fin 3) (hperm : perm.toNat < 4096) :
    target (pageEntry (p i) perm) = some (p i) :=
  Balanced.target_newEntry (h.page_lt i) hperm

/-! What the calls of the self-tests do on the bench. -/

theorem noPage (hh : b.head = none) : assertNoFreePage (b.at_ s p) = .ok () (b.at_ s p) := by
  rw [assertNoFreePage, bind_ok (pageAlloc_none hh)]
  exact check_true rfl _

theorem setFreeList (o : Option Nat) :
    setFreeList o (b.at_ s p) = .ok () ((b.setHead o).at_ s p) := rfl

theorem pageAlloc (h : Trio s p) (i : Fin 3) (hh : b.head = some (p i)) :
    pageAlloc 0#32 (b.at_ s p) = .ok (some (p i)) ((b.take i).at_ s p) := by
  rw [← h.take]
  exact pageAlloc_plain hh (by decide)

theorem alloc (h : Trio s p) (i : Fin 3) (hh : b.head = some (p i)) (text : String) :
    allocPage text (b.at_ s p) = .ok (p i) ((b.take i).at_ s p) := by
  rw [allocPage, bind_ok (h.pageAlloc i hh)]
  rfl

theorem allocZeroed (h : Trio s p) (i : Fin 3) (hh : b.head = some (p i)) :
    Jos.pageAlloc allocZero (b.at_ s p) =
      .ok (some (p i)) (((b.fill p i 1024 0#32).take i).at_ s p) := by
  rw [← h.take, ← h.fill]
  exact pageAlloc_zero hh (by decide) (h.lt i) h.npages_le

theorem free (h : Trio s p) (i : Fin 3) (hr : (b.info i).ppRef = 0) (hl : (b.info i).ppLink = none) :
    pageFree (p i) (b.at_ s p) = .ok () ((b.push p i).at_ s p) := by
  rw [← h.push]
  apply pageFree_ok
  · rw [h.pages_at, hr]
  · rw [h.pages_at, hl]

theorem kva (h : Trio s p) (i : Fin 3) : page2kva (p i) (b.at_ s p) = .ok (p i) (b.at_ s p) :=
  page2kva_ok (h.lt i) h.npages_le

theorem memset (h : Trio s p) (i : Fin 3) (w : Word) :
    memsetPage (p i) w (b.at_ s p) = .ok () ((b.fill p i 1024 w).at_ s p) := by
  rw [← h.fill]
  rfl

theorem pageRef (h : Trio s p) (i : Fin 3) (hr : (b.info i).ppRef = r) :
    assertRef (p i) r (b.at_ s p) = .ok () (b.at_ s p) := by
  rw [assertRef, bind_ok (read_apply _)]
  apply check_true
  rw [h.pages_at, hr]

theorem ref_ne (h : Trio s p) (hr : (b.info i).ppRef = r) (hr0 : r ≠ 0) :
    ((b.at_ s p).pages (p i)).ppRef ≠ 0 := by
  rwa [h.pages_at, hr]

theorem link_eq (h : Trio s p) (hl : (b.info i).ppLink = o) :
    ((b.at_ s p).pages (p i)).ppLink = o := by
  rw [h.pages_at, hl]

theorem clearRef (h : Trio s p) (i : Fin 3) :
    setPageRef (p i) r (b.at_ s p) = .ok () ((b.setRef i r).at_ s p) := by
  rw [← h.setRef]
  rfl

theorem setDir (h : Trio s p) :
    setDirEntry s.kernPgdir j w (b.at_ s p) = .ok () ((b.storeDir s.kernPgdir j w).at_ s p) := by
  rw [← h.storeDir]
  rfl

theorem isTable (h : Trio s p) (i : Fin 3) (hd : b.dir j = tableEntry (p i)) :
    assertTable s.kernPgdir j (p i) (b.at_ s p) = .ok () (b.at_ s p) := by
  rw [assertTable, bind_ok (read_apply _)]
  apply check_true
  rw [h.mem_dir, hd, ← page2pa_pgnum, (target_eq_some.mp (h.target_tableEntry i)).2]

theorem user_dir (h : Trio s p) (hd : b.dir j = tableEntry (p i)) :
    Has ((b.at_ s p).mem s.kernPgdir j) pteU := by
  rw [h.mem_dir, hd, tableEntry, BitVec.or_assoc, BitVec.or_assoc, has_entry (by decide)]
  decide

theorem target_dir (h : Trio s p) (hd : b.dir (pdx va) = tableEntry (p i)) :
    target ((b.at_ s p).mem s.kernPgdir (pdx va)) = some (p i) := by
  rw [h.mem_dir, hd, h.target_tableEntry]

theorem target_dir_none (h : Trio s p) (hd : b.dir (pdx va) = 0#32) :
    target ((b.at_ s p).mem s.kernPgdir (pdx va)) = none := by
  rw [h.mem_dir, hd, target_zero]

theorem walk (h : Trio s p) (i : Fin 3) (hd : b.dir (pdx va) = tableEntry (p i)) {create : Bool} :
    pgdirWalk s.kernPgdir va create (b.at_ s p) = .ok (some ⟨p i, ptx va⟩) (b.at_ s p) :=
  pgdirWalk_present (h.target_dir hd) (h.lt i)

theorem walk_create (h : Trio s p) (i : Fin 3) (hd : b.dir (pdx va) = 0#32)
    (hh : b.head = some (p i)) (hr : (b.info i).ppRef = 0) :
    pgdirWalk s.kernPgdir va true (b.at_ s p) =
      .ok (some ⟨p i, ptx va⟩) ((b.table p s.kernPgdir i (pdx va)).at_ s p) := by
  rw [← h.table hr]
  exact pgdirWalk_create (h.target_dir_none hd) hh (h.lt i) h.npages_le

theorem dirTable (h : Trio s p) (i : Fin 3) (hd : b.dir j = tableEntry (p i)) :
    kaddr (pteAddr ((b.at_ s p).mem s.kernPgdir j)) (b.at_ s p) = .ok (p i) (b.at_ s p) := by
  have hp : pgnum (pteAddr (tableEntry (p i))) = p i := by
    rw [pgnum_pteAddr, (target_eq_some.mp (h.target_tableEntry i)).2]
  have hk : kaddr (pteAddr (tableEntry (p i))) (b.at_ s p) =
      .ok (pgnum (pteAddr (tableEntry (p i)))) (b.at_ s p) := kaddr_ok (by rw [hp]; exact h.lt i)
  rw [h.mem_dir, hd, hk, hp]

theorem mapped (h : Trio s p) {f : Word} (hw : b.words i (ptx va) = pageEntry (p k) f) (hf : f.toNat < 4096) :
    target ((b.at_ s p).mem (p i) (ptx va)) = some (p k) := by
  rw [h.mem_at, hw, h.target_pageEntry k hf]

section table

variable (h : Trio s p) (hd : b.dir (pdx va) = tableEntry (p i))
include h hd

theorem va2pa {f : Word} (hw : b.words i (ptx va) = pageEntry (p k) f) (hf : f.toNat < 4096) :
    assertVa2pa s.kernPgdir va (page2pa (p k)) (b.at_ s p) = .ok () (b.at_ s p) := by
  obtain ⟨hP, hn⟩ := target_eq_some.mp (h.mapped hw hf)
  have hrun := checkVa2pa_table (h.target_dir hd) (h.lt i)
  rw [if_pos hP, ← page2pa_pgnum, hn] at hrun
  exact assertVa2pa_ok hrun

theorem va2pa_none (hw : b.words i (ptx va) = 0#32) :
    assertVa2pa s.kernPgdir va Jos.noPage (b.at_ s p) = .ok () (b.at_ s p) := by
  have hrun := checkVa2pa_table (h.target_dir hd) (h.lt i)
  have hP : ¬ Has ((b.at_ s p).mem (p i) (ptx va)) pteP := by
    rw [h.mem_at, hw]
    exact not_has_zero
  rw [if_neg hP] at hrun
  exact assertVa2pa_ok hrun

theorem flag {f g : Word} {set : Bool} (hw : b.words i (ptx va) = pageEntry (p k) f)
    (hg : g.toNat < 4096) (hf : decide (Has (f ||| pteP) g) = set) :
    assertFlag s.kernPgdir va g set (b.at_ s p) = .ok () (b.at_ s p) := by
  rw [assertFlag, bind_ok (h.walk i hd)]
  change (read >>= _) (b.at_ s p) = _
  rw [bind_ok (read_apply _)]
  apply check_true
  have hiff : Has (pageEntry (p k) f) g ↔ Has (f ||| pteP) g := by
    rw [pageEntry, pteAddr_page2pa (h.page_lt k), BitVec.or_assoc, has_entry hg]
  rw [h.mem_at, hw, ← hf]
  exact decide_eq_decide.mpr hiff

theorem remove {f : Word} (hw : b.words i (ptx va) = pageEntry (p k) f) (hf : f.toNat < 4096)
    (hr : (b.info k).ppRef = r) (hr0 : r ≠ 0) (hl : (b.info k).ppLink = none) :
    pageRemove s.kernPgdir va (b.at_ s p) = .ok () ((b.unmap p i k va r).at_ s p) := by
  rw [← h.unmap hr]
  apply pageRemove_mapped (h.target_dir hd) (h.lt i) (h.mapped hw hf) (h.lt k)
  · rwa [h.pages_at, hr]
  · rw [h.pages_at, hl]

theorem insert_run (hw : b.words i (ptx va) = 0#32) (hr : (b.info k).ppRef = r) (perm : Word) :
    pageInsert s.kernPgdir (p k) va perm (b.at_ s p) =
      .ok 0 ((b.insert p i k va perm r).at_ s p) := by
  have hrm : pageRemove s.kernPgdir va ((b.setRef k (r + 1)).at_ s p) =
      .ok () ((b.setRef k (r + 1)).at_ s p) := by
    refine pageRemove_unmapped (t := p i) ?_ (h.lt i) ?_
    · exact h.target_dir hd
    · rw [h.mem_at]
      change target (b.words i (ptx va)) = none
      rw [hw, target_zero]
  have hinc : Jos.incRef (p k) (b.at_ s p) = .ok () ((b.setRef k (r + 1)).at_ s p) := by
    rw [← hr, ← h.incRef]
    rfl
  rw [pageInsert, bind_ok (h.walk i hd)]
  change (Jos.incRef (p k) >>= _) (b.at_ s p) = _
  rw [bind_ok hinc, bind_ok hrm, bind_ok (update_apply _ _), pure_apply, h.storeWord]
  rfl

theorem replace {l : Fin 3} {f : Word} {c : BitVec 16}
    (hw : b.words i (ptx va) = pageEntry (p l) f) (hf : f.toNat < 4096)
    (hr : (b.info k).ppRef = r) (hc : ((b.setRef k (r + 1)).info l).ppRef = c) (hc0 : c ≠ 0)
    (hl : ((b.setRef k (r + 1)).info l).ppLink = none) :
    pageInsert s.kernPgdir (p k) va perm (b.at_ s p) =
      .ok 0 ((b.replace p i k va perm l r c).at_ s p) := by
  have hrm := remove (b := b.setRef k (r + 1)) h hd hw hf hc hc0 hl
  have hinc : Jos.incRef (p k) (b.at_ s p) = .ok () ((b.setRef k (r + 1)).at_ s p) := by
    rw [← hr, ← h.incRef]
    rfl
  rw [pageInsert, bind_ok (h.walk i hd)]
  change (Jos.incRef (p k) >>= _) (b.at_ s p) = _
  rw [bind_ok hinc, bind_ok hrm, bind_ok (update_apply _ _), pure_apply, h.storeWord]
  rfl

/-- What the processor sees at an address mapped on the bench. -/
theorem hwWalk_at (hc : s.cr3 = s.kernPgdir) {f : Word}
    (hw : b.words i (ptx va) = pageEntry (p k) f) (hf : f.toNat < 4096) :
    ∃ x, hwWalk (b.at_ s p).mem (b.at_ s p).cr3 va = some x ∧ x.page = p k ∧
      (Has f pteW → x.write = true) := by
  obtain ⟨hP, hn⟩ := target_eq_some.mp (h.target_dir hd)
  have hm := h.mapped hw hf
  rw [← hn] at hm
  obtain ⟨hP', hn'⟩ := target_eq_some.mp hm
  have hcr3 : (b.at_ s p).cr3 = s.kernPgdir := hc
  rw [hcr3, hwWalk_mapped hP hP']
  refine ⟨_, rfl, hn', fun hW => ?_⟩
  apply decide_eq_true
  rw [hn, h.mem_at, hw, h.mem_dir, hd, tableEntry, pageEntry]
  exact ⟨has_or.mpr (Or.inr (by decide)), has_or.mpr (Or.inl (has_or.mpr (Or.inr hW)))⟩

theorem word (hc : s.cr3 = s.kernPgdir) {f : Word} (hw : b.words i (ptx va) = pageEntry (p k) f)
    (hf : f.toNat < 4096) (hx : b.words k (pgoff va / 4) = w) :
    assertWord va w (b.at_ s p) = .ok () (b.at_ s p) := by
  obtain ⟨x, hwalk, hpage, -⟩ := h.hwWalk_at hd hc hw hf
  have hload : loadWord va (b.at_ s p) = .ok w (b.at_ s p) := by
    rw [loadWord, bind_ok (read_apply _), hwalk, pure_apply, hpage, h.mem_at, hx]
  rw [assertWord, bind_ok hload]
  exact check_true rfl _

theorem storeVa (hc : s.cr3 = s.kernPgdir) {f : Word}
    (hw : b.words i (ptx va) = pageEntry (p k) f) (hf : f.toNat < 4096) (hW : Has f pteW) :
    Jos.storeWord va w (b.at_ s p) = .ok () ((b.storeWord p k (pgoff va / 4) w).at_ s p) := by
  obtain ⟨x, hwalk, hpage, hwrite⟩ := h.hwWalk_at hd hc hw hf
  rw [Jos.storeWord, bind_ok (read_apply _), hwalk]
  change (check _ (x.write = true) >>= _) (b.at_ s p) = _
  rw [bind_ok (check_true (hwrite hW) _), update_apply, hpage, h.storeWord]

end table

theorem insert_noMem (h : Trio s p) (hd : b.dir (pdx va) = 0#32) (hh : b.head = none) {q : Nat} :
    pageInsert s.kernPgdir q va perm (b.at_ s p) = .ok (-eNoMem) (b.at_ s p) :=
  pageInsert_noMem (h.target_dir_none hd) hh

/-- page_insert that first makes the page table. -/
theorem insert_create (h : Trio s p) (i : Fin 3) (hd : b.dir (pdx va) = 0#32)
    (hh : b.head = some (p i)) (hi : (b.info i).ppRef = 0)
    (hr : ((b.table p s.kernPgdir i (pdx va)).info k).ppRef = r) :
    pageInsert s.kernPgdir (p k) va perm (b.at_ s p) =
      .ok 0 (((b.table p s.kernPgdir i (pdx va)).insert p i k va perm r).at_ s p) := by
  have hd' : (b.table p s.kernPgdir i (pdx va)).dir (pdx va) = tableEntry (p i) :=
    Function.update_self _ _ _
  have hw' : (b.table p s.kernPgdir i (pdx va)).words i (ptx va) = 0#32 :=
    Bench.words_table _ _ _ _ (ptx_lt va)
  have hrun := h.insert_run hd' hw' hr perm
  rw [pageInsert, bind_ok (h.walk i hd')] at hrun
  rw [pageInsert, bind_ok (h.walk_create i hd hh hi)]
  exact hrun

theorem assertInsert_ok {d q : Nat} {t u : Kernel} (hrun : pageInsert d q va perm t = .ok 0 u) :
    assertInsert d q va perm t = .ok () u := by
  rw [assertInsert, bind_ok hrun]
  exact check_true rfl _

theorem assertInsertFails_ok {d q : Nat} {t u : Kernel}
    (hrun : pageInsert d q va perm t = .ok (-eNoMem) u) :
    assertInsertFails d q va perm t = .ok () u := by
  rw [assertInsertFails, bind_ok hrun]
  exact check_true (by decide) _

end Trio

section tests

variable {s : Kernel} {p : Fin 3 → Nat} {rest : Option Nat} {fl : List Nat}

/-- The bench before a test: its pages head the free list. -/
def Bench.start (s : Kernel) (p : Fin 3 → Nat) (rest : Option Nat) : Bench where
  head := some (p 0)
  info := ![⟨some (p 1), 0⟩, ⟨some (p 2), 0⟩, ⟨rest, 0⟩]
  words := fun i => s.mem (p i)
  dir := s.mem s.kernPgdir
  log := s.log

theorem assert_ok {text : String} {c : Prop} [Decidable c] (hc : c) (t : Kernel) :
    assert text c t = .ok () t := check_true hc t

theorem forLink_const {α : Type} {body : α → Nat → Kern α} {g : α → α}
    (hbody : ∀ acc, ∀ q ∈ fl, body acc q s = .ok (g acc) s) {fuel : Nat} {head : Option Nat}
    (hc : Chain (fun q => (s.pages q).ppLink) head fl) (hlen : fl.length ≤ fuel) (acc : α) :
    forLink body fuel head acc s = .ok (g^[fl.length] acc) s := by
  induction fl generalizing fuel head acc with
  | nil =>
    rw [hc]
    cases fuel <;> rfl
  | cons q fl ih =>
    obtain ⟨rfl, hc⟩ := hc
    cases fuel with
    | zero => simp at hlen
    | succ fuel =>
      rw [forLink, bind_ok (hbody acc q (by simp)), bind_ok (read_apply _)]
      exact ih (fun acc q hq => hbody acc q (by simp [hq])) hc (by simpa using hlen) (g acc)

theorem countFreeList_ok (hc : Chain (fun q => (s.pages q).ppLink) s.pageFreeList fl)
    (hlen : fl.length ≤ s.npages) : countFreeList s = .ok fl.length s := by
  rw [countFreeList, forFreeList, bind_ok (read_apply _),
    forLink_const (g := Nat.succ) (fun _ _ _ => rfl) hc hlen, Nat.succ_iterate,
    Nat.zero_add]

/-- The free list is the old one when the bench's pages are linked as at the start. -/
theorem countFreeList_bench {b : Bench} (hs : s = (Bench.start s p rest).at_ s p)
    (hc : Chain (fun q => (s.pages q).ppLink) s.pageFreeList fl) (hlen : fl.length ≤ s.npages)
    (hhead : b.head = some (p 0)) (hinfo : b.info = (Bench.start s p rest).info) :
    countFreeList (b.at_ s p) = .ok fl.length (b.at_ s p) := by
  have hpages : (b.at_ s p).pages = s.pages :=
    (congrArg (fun v => Function.extend p v s.pages) hinfo).trans (congrArg Kernel.pages hs).symm
  have hfree : (b.at_ s p).pageFreeList = s.pageFreeList :=
    hhead.trans (congrArg Kernel.pageFreeList hs).symm
  apply countFreeList_ok
  · rw [hpages, hfree]
    exact hc
  · exact hlen

theorem forRange_ok {body : Nat → Kern Unit} {n : Nat} (hbody : ∀ i < n, body i s = .ok () s) :
    forRange body n s = .ok () s := by
  induction n with
  | zero => rfl
  | succ n ih =>
    rw [forRange, bind_ok (ih fun i hi => hbody i (by omega))]
    exact hbody n (by omega)

/-- check_page_alloc leaves the free list as it found it. -/
theorem checkPageAlloc_run (h : Trio s p) (hs : s = (Bench.start s p rest).at_ s p)
    (hva : s.pagesVa ≠ 0) (hc : Chain (fun q => (s.pages q).ppLink) s.pageFreeList fl)
    (hlen : fl.length ≤ s.npages) :
    Returns checkPageAlloc s fun _ t => ∃ b : Bench, t = b.at_ s p ∧ b.head = some (p 0) ∧
      b.info = ![⟨some (p 1), 0⟩, ⟨some (p 2), 0⟩, ⟨rest, 0⟩] ∧ b.dir = s.mem s.kernPgdir := by
  have h01 : p 1 ≠ p 0 := fun he => absurd (h.inj he) (by decide)
  have h12 : p 2 ≠ p 1 := fun he => absurd (h.inj he) (by decide)
  have h02 : p 2 ≠ p 0 := fun he => absurd (h.inj he) (by decide)
  have hlt : ∀ i, page2pa (p i) < BitVec.ofNat 32 s.npages * pgsize := by
    intro i
    have h1 := h.lt i
    have h2 := h.npages_le
    have hp : BitVec.ofNat 32 s.npages * pgsize = page2pa s.npages := (page2pa_eq _).symm
    rw [hp, BitVec.lt_def, toNat_page2pa (by omega), toNat_page2pa (by omega)]
    omega
  rw [checkPageAlloc]
  refine Returns.step (read_apply _) ?_
  refine Returns.step (check_true hva _) ?_
  refine Returns.step (countFreeList_ok hc hlen) ?_
  refine Returns.step ((congrArg _ hs).trans (h.alloc 0 (by rfl) _)) ?_
  refine Returns.step (h.alloc 1 (by rfl) _) ?_
  refine Returns.step (h.alloc 2 (by rfl) _) ?_
  refine Returns.step (assert_ok h01 _) ?_
  refine Returns.step (assert_ok ⟨h12, h02⟩ _) ?_
  refine Returns.step (read_apply _) ?_
  refine Returns.step (assert_ok (hlt 0) _) ?_
  refine Returns.step (assert_ok (hlt 1) _) ?_
  refine Returns.step (assert_ok (hlt 2) _) ?_
  refine Returns.step (Trio.setFreeList _) ?_
  refine Returns.step (Trio.noPage (by rfl)) ?_
  refine Returns.step (h.free 0 (by rfl) (by rfl)) ?_
  refine Returns.step (h.free 1 (by rfl) (by rfl)) ?_
  refine Returns.step (h.free 2 (by rfl) (by rfl)) ?_
  -- the three pages come back in the other order
  refine Returns.step (h.alloc 2 (by rfl) _) ?_
  refine Returns.step (h.alloc 1 (by rfl) _) ?_
  refine Returns.step (h.alloc 0 (by rfl) _) ?_
  refine Returns.step (assert_ok h12.symm _) ?_
  refine Returns.step (assert_ok ⟨h01.symm, h02.symm⟩ _) ?_
  refine Returns.step (Trio.noPage (by rfl)) ?_
  refine Returns.step (h.kva 2) ?_
  refine Returns.step (h.memset 2 _) ?_
  refine Returns.step (h.free 2 (by rfl) (by rfl)) ?_
  refine Returns.step (h.allocZeroed 2 (by rfl)) ?_
  refine Returns.step (assert_ok rfl _) ?_
  refine Returns.step (h.kva 2) ?_
  refine Returns.step (forRange_ok ?_) ?_
  · intro j hj
    rw [bind_ok (read_apply _)]
    apply assert_ok
    rw [h.mem_at]
    exact if_pos hj
  refine Returns.step (Trio.setFreeList _) ?_
  refine Returns.step (h.free 2 (by rfl) (by rfl)) ?_
  refine Returns.step (h.free 1 (by rfl) (by rfl)) ?_
  refine Returns.step (h.free 0 (by rfl) (by rfl)) ?_
  -- and go back in the order they had
  refine Returns.step (countFreeList_bench hs hc hlen ?head ?info) ?last
  case head => rfl
  case info => exact ext_three rfl rfl rfl
  exact Returns.of_ok (assert_ok rfl _) ⟨_, rfl, rfl, ext_three rfl rfl rfl, rfl⟩

/-- check_page puts the three pages back in the other order, and kern_pgdir as it was. -/
theorem checkPage_run (h : Trio s p) (hs : s = (Bench.start s p rest).at_ s p)
    (hd0 : s.mem s.kernPgdir 0 = 0#32) (hd1 : s.mem s.kernPgdir 1 = 0#32) :
    Returns checkPage s fun _ t => ∃ b : Bench, t = b.at_ s p ∧ b.head = some (p 2) ∧
      b.info = ![⟨rest, 0⟩, ⟨some (p 0), 0⟩, ⟨some (p 1), 0⟩] ∧ b.dir = s.mem s.kernPgdir := by
  have h01 : p 1 ≠ p 0 := fun he => absurd (h.inj he) (by decide)
  have h12 : p 2 ≠ p 1 := fun he => absurd (h.inj he) (by decide)
  have h02 : p 2 ≠ p 0 := fun he => absurd (h.inj he) (by decide)
  have hW : pteW.toNat < 4096 := by decide
  have hU : pteU.toNat < 4096 := by decide
  have hWU : (pteW ||| pteU).toNat < 4096 := by decide
  rw [checkPage]
  refine Returns.step (read_apply _) ?_
  refine Returns.step ((congrArg _ hs).trans (h.alloc 0 (by rfl) _)) ?_
  refine Returns.step (h.alloc 1 (by rfl) _) ?_
  refine Returns.step (h.alloc 2 (by rfl) _) ?_
  refine Returns.step (assert_ok h01 _) ?_
  refine Returns.step (assert_ok ⟨h12, h02⟩ _) ?_
  refine Returns.step (read_apply _) ?_
  refine Returns.step (Trio.setFreeList _) ?_
  refine Returns.step (Trio.noPage (by rfl)) ?_
  refine Returns.step (pageLookup_noTable (h.target_dir_none (by exact hd0))) ?_
  refine Returns.step (assert_ok rfl _) ?_
  refine Returns.step (Trio.assertInsertFails_ok (h.insert_noMem (by exact hd0) (by rfl))) ?_
  -- page 0 becomes the page table, page 1 is mapped at 0
  refine Returns.step (h.free 0 (by rfl) (by rfl)) ?_
  refine Returns.step (Trio.assertInsert_ok
    (h.insert_create (r := 0) 0 (by exact hd0) (by rfl) (by rfl) (by rfl))) ?_
  refine Returns.step (h.isTable 0 (by rfl)) ?_
  refine Returns.step (h.va2pa (i := 0) (by rfl) (by rfl) hW) ?_
  refine Returns.step (h.pageRef 1 (by rfl)) ?_
  refine Returns.step (h.pageRef 0 (by rfl)) ?_
  -- page 2 at PGSIZE, again and again
  refine Returns.step (Trio.assertInsert_ok
    (h.insert_run (i := 0) (r := 0) (by rfl) (by rfl) (by rfl) _)) ?_
  refine Returns.step (h.va2pa (i := 0) (by rfl) (by rfl) hW) ?_
  refine Returns.step (h.pageRef 2 (by rfl)) ?_
  refine Returns.step (Trio.noPage (by rfl)) ?_
  refine Returns.step (Trio.assertInsert_ok
    (h.replace (i := 0) (r := 1) (c := 2) (by rfl) (by rfl) hW (by rfl) (by rfl) (by decide)
      (by rfl))) ?_
  refine Returns.step (h.va2pa (i := 0) (by rfl) (by rfl) hW) ?_
  refine Returns.step (h.pageRef 2 (by rfl)) ?_
  refine Returns.step (Trio.noPage (by rfl)) ?_
  refine Returns.step (read_apply _) ?_
  refine Returns.step (h.dirTable 0 (by rfl)) ?_
  refine Returns.step (h.walk 0 (by rfl)) ?_
  refine Returns.step (assert_ok rfl _) ?_
  refine Returns.step (Trio.assertInsert_ok
    (h.replace (i := 0) (r := 1) (c := 2) (by rfl) (by rfl) hW (by rfl) (by rfl) (by decide)
      (by rfl))) ?_
  refine Returns.step (h.va2pa (i := 0) (by rfl) (by rfl) hWU) ?_
  refine Returns.step (h.pageRef 2 (by rfl)) ?_
  refine Returns.step (h.flag (i := 0) (by rfl) (by rfl) hU (by decide)) ?_
  refine Returns.step (read_apply _) ?_
  refine Returns.step (assert_ok (h.user_dir (i := 0) (by rfl)) _) ?_
  refine Returns.step (Trio.assertInsert_ok
    (h.replace (i := 0) (r := 1) (c := 2) (by rfl) (by rfl) hWU (by rfl) (by rfl) (by decide)
      (by rfl))) ?_
  refine Returns.step (h.flag (i := 0) (by rfl) (by rfl) hW (by decide)) ?_
  refine Returns.step (h.flag (i := 0) (by rfl) (by rfl) hU (by decide)) ?_
  refine Returns.step (Trio.assertInsertFails_ok (h.insert_noMem (by exact hd1) (by rfl))) ?_
  -- page 1 takes its place, and page 2 is free
  refine Returns.step (Trio.assertInsert_ok
    (h.replace (i := 0) (r := 1) (c := 1) (by rfl) (by rfl) hW (by rfl) (by rfl) (by decide)
      (by rfl))) ?_
  refine Returns.step (h.flag (i := 0) (by rfl) (by rfl) hU (by decide)) ?_
  refine Returns.step (h.va2pa (i := 0) (by rfl) (by rfl) hW) ?_
  refine Returns.step (h.va2pa (i := 0) (by rfl) (by rfl) hW) ?_
  refine Returns.step (h.pageRef 1 (by rfl)) ?_
  refine Returns.step (h.pageRef 2 (by rfl)) ?_
  refine Returns.step (h.pageAlloc 2 (by rfl)) ?_
  refine Returns.step (assert_ok rfl _) ?_
  refine Returns.step (h.remove (i := 0) (r := 2) (by rfl) (by rfl) hW (by rfl) (by decide)
    (by rfl)) ?_
  refine Returns.step (h.va2pa_none (i := 0) (by rfl) (by rfl)) ?_
  refine Returns.step (h.va2pa (i := 0) (by rfl) (by rfl) hW) ?_
  refine Returns.step (h.pageRef 1 (by rfl)) ?_
  refine Returns.step (h.pageRef 2 (by rfl)) ?_
  refine Returns.step (Trio.assertInsert_ok
    (h.replace (i := 0) (r := 1) (c := 2) (by rfl) (by rfl) hW (by rfl) (by rfl) (by decide)
      (by rfl))) ?_
  refine Returns.step (read_apply _) ?_
  refine Returns.step (assert_ok (h.ref_ne (r := 1) (by rfl) (by decide)) _) ?_
  refine Returns.step (assert_ok (h.link_eq (by rfl)) _) ?_
  refine Returns.step (h.remove (i := 0) (r := 1) (by rfl) (by rfl) (by decide) (by rfl)
    (by decide) (by rfl)) ?_
  refine Returns.step (h.va2pa_none (i := 0) (by rfl) (by rfl)) ?_
  refine Returns.step (h.va2pa_none (i := 0) (by rfl) (by rfl)) ?_
  refine Returns.step (h.pageRef 1 (by rfl)) ?_
  refine Returns.step (h.pageRef 2 (by rfl)) ?_
  refine Returns.step (h.pageAlloc 1 (by rfl)) ?_
  refine Returns.step (assert_ok rfl _) ?_
  refine Returns.step (Trio.noPage (by rfl)) ?_
  -- the table in page 0 is taken back, and made anew twice
  refine Returns.step (h.isTable 0 (by rfl)) ?_
  refine Returns.step h.setDir ?_
  refine Returns.step (h.pageRef 0 (by rfl)) ?_
  refine Returns.step (h.clearRef 0) ?_
  refine Returns.step (h.free 0 (by rfl) (by rfl)) ?_
  refine Returns.step (h.walk_create 0 (by exact hd1) (by rfl) (by rfl)) ?_
  refine Returns.step (read_apply _) ?_
  refine Returns.step (h.dirTable 0 (by rfl)) ?_
  refine Returns.step (assert_ok rfl _) ?_
  refine Returns.step h.setDir ?_
  refine Returns.step (h.clearRef 0) ?_
  refine Returns.step (h.kva 0) ?_
  refine Returns.step (h.memset 0 _) ?_
  refine Returns.step (h.free 0 (by rfl) (by rfl)) ?_
  refine Returns.step (h.walk_create 0 (by rfl) (by rfl) (by rfl)) ?_
  refine Returns.step (h.kva 0) ?_
  refine Returns.step (forRange_ok ?_) ?_
  · intro j hj
    rw [bind_ok (read_apply _)]
    apply assert_ok
    rw [h.mem_at, Bench.words_table _ _ _ _ hj]
    exact not_has_zero
  refine Returns.step h.setDir ?_
  refine Returns.step (h.clearRef 0) ?_
  refine Returns.step (Trio.setFreeList _) ?_
  refine Returns.step (h.free 0 (by rfl) (by rfl)) ?_
  refine Returns.step (h.free 1 (by rfl) (by rfl)) ?_
  refine Returns.of_ok (h.free 2 (by rfl) (by rfl)) ⟨_, rfl, rfl, ext_three rfl rfl rfl, ?_⟩
  funext j
  match j with
  | 0 => exact hd0.symm
  | 1 => exact hd1.symm
  | j + 2 => rfl

/-- The events of check_page_installed_pgdir from the new page table to its removal. -/
def installedEvents (p : Fin 3 → Nat) (pgdir : Nat) : List HwEvent :=
  [.store pgdir 0 (tableEntry (p 0)), .store (p 0) 1 (pageEntry (p 1) pteW),
    .store (p 0) 1 0#32, .invlpg pgsize, .store (p 0) 1 (pageEntry (p 2) pteW),
    .store (p 2) 0 0x03030303#32, .store (p 0) 1 0#32, .invlpg pgsize, .store pgdir 0 0#32]

/-- check_page_installed_pgdir frees the three pages again, and kern_pgdir is as it was. -/
theorem checkPageInstalledPgdir_run (h : Trio s p) (hs : s = (Bench.start s p rest).at_ s p)
    (hd0 : s.mem s.kernPgdir 0 = 0#32) (hc : s.cr3 = s.kernPgdir) :
    Returns checkPageInstalledPgdir s fun _ t => ∃ b : Bench, t = b.at_ s p ∧
      b.head = some (p 0) ∧ b.info = ![⟨some (p 2), 0⟩, ⟨rest, 0⟩, ⟨some (p 1), 0⟩] ∧
      b.dir = s.mem s.kernPgdir ∧
      ∃ events, b.log = s.log ++ events ++ installedEvents p s.kernPgdir := by
  have hW : pteW.toNat < 4096 := by decide
  rw [checkPageInstalledPgdir]
  refine Returns.step (read_apply _) ?_
  refine Returns.step ((congrArg _ hs).trans (h.alloc 0 (by rfl) _)) ?_
  refine Returns.step (h.alloc 1 (by rfl) _) ?_
  refine Returns.step (h.alloc 2 (by rfl) _) ?_
  refine Returns.step (h.free 0 (by rfl) (by rfl)) ?_
  refine Returns.step (h.kva 1) ?_
  refine Returns.step (h.memset 1 _) ?_
  refine Returns.step (h.kva 2) ?_
  refine Returns.step (h.memset 2 _) ?_
  refine Returns.step (h.insert_create (r := 0) 0 (by exact hd0) (by rfl) (by rfl) (by rfl)) ?_
  refine Returns.step (h.pageRef 1 (by rfl)) ?_
  refine Returns.step (h.word (i := 0) (by rfl) hc (by rfl) hW (by rfl)) ?_
  refine Returns.step (h.replace (i := 0) (r := 0) (c := 1) (by rfl) (by rfl) hW (by rfl) (by rfl)
    (by decide) (by rfl)) ?_
  refine Returns.step (h.word (i := 0) (by rfl) hc (by rfl) hW (by rfl)) ?_
  refine Returns.step (h.pageRef 2 (by rfl)) ?_
  refine Returns.step (h.pageRef 1 (by rfl)) ?_
  refine Returns.step (h.storeVa (i := 0) (by rfl) hc (by rfl) hW (by decide)) ?_
  refine Returns.step (h.kva 2) ?_
  refine Returns.step (read_apply _) ?_
  refine Returns.step (assert_ok (by rw [h.mem_at]; rfl) _) ?_
  refine Returns.step (h.remove (i := 0) (r := 1) (by rfl) (by rfl) hW (by rfl) (by decide)
    (by rfl)) ?_
  refine Returns.step (h.pageRef 2 (by rfl)) ?_
  refine Returns.step (h.isTable 0 (by rfl)) ?_
  refine Returns.step h.setDir ?_
  refine Returns.step (h.pageRef 0 (by rfl)) ?_
  refine Returns.step (h.clearRef 0) ?_
  refine Returns.of_ok (h.free 0 (by rfl) (by rfl)) ⟨_, rfl, rfl, ext_three rfl rfl rfl, ?_, ?_⟩
  · funext j
    match j with
    | 0 => exact hd0.symm
    | j + 1 => rfl
  · refine ⟨((List.range 1024).map fun j => .store (p 1) j 0x01010101#32) ++
      ((List.range 1024).map fun j => .store (p 2) j 0x02020202#32) ++
      (List.range 1024).map fun j => .store (p 0) j 0#32, ?_⟩
    have h0 : pdx pgsize = 0 := by decide
    have h1 : ptx pgsize = 1 := by decide
    have h2 : pgoff pgsize / 4 = 0 := by decide
    simp [Bench.start, installedEvents, h0, h1, h2]

end tests

end Jos
