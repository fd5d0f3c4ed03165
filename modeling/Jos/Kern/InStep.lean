import Jos.Kern.LoadImage
import Jos.Library.Lockstep

/-! Two runs in step, from states that differ in the contents of free pages and in the saved
registers of free environments. -/
namespace Jos

open Prog

/-- `t` is `s` with other memory and other saved registers. -/
def SameButData (s t : Kernel) : Prop := t = { s with envs := t.envs, mem := t.mem, log := t.log }

/-- Free environments may have other registers saved. -/
def SameLive (s t : Kernel) : Prop :=
  ∀ e, t.envs e = { s.envs e with envTf := (t.envs e).envTf } ∧
    ((s.envs e).envStatus ≠ .free → t.envs e = s.envs e)

/-- The two states differ in the contents of free pages and in env_tf of free environments only. -/
structure SameButFree (s t : Kernel) : Prop where
  rest : SameButData s t
  envs : SameLive s t
  mem : ∀ q, ¬ s.OnFreeList q → t.mem q = s.mem q

/-- Byte `off` of page `q`, which was free, still is what it was in either run. -/
def Leftover (s₁ s₂ u₁ u₂ : Kernel) (q off : Nat) : Prop :=
  s₁.OnFreeList q ∧ u₁.pageByte q off = s₁.pageByte q off ∧ u₂.pageByte q off = s₂.pageByte q off

/-- `u₁` and `u₂` have been reached in step from `s₁` and `s₂`: the tables are the same, and so is
every byte either run has stored. -/
structure InStep (s₁ s₂ : Kernel) (L : Ledger) (u₁ u₂ : Kernel) : Prop where
  rest : SameButData u₁ u₂
  envs : SameLive u₁ u₂
  tables : ∀ q, ¬ IsData u₁ L q → ∀ j < 1024, u₂.mem q j = u₁.mem q j
  bytes : ∀ q off, u₂.pageByte q off = u₁.pageByte q off ∨ Leftover s₁ s₂ u₁ u₂ q off

section follows

variable {s s' : Kernel} {n : Nat}

theorem forRange_follows {body : Nat → Kern Unit} {I : Nat → Kernel → Kernel → Prop} (h0 : I 0 s s')
    (hstep : ∀ k < n, ∀ t t', I k t t' →
      Follows (body k) (body k) t t' fun _ u u' => I (k + 1) u u') :
    Follows (forRange body n) (forRange body n) s s' fun _ t t' => I n t t' := by
  induction n with
  | zero => exact Follows.of_ok rfl rfl h0
  | succ n ih =>
    refine Follows.bind (ih fun k hk => hstep k (by omega)) ?_
    intro a t t' ht
    exact hstep n (by omega) t t' ht

end follows

namespace SameButData

variable {s t : Kernel} {d i j p q : Nat} {w va perm : Word}

theorem npages (h : SameButData s t) : t.npages = s.npages := by rw [h]

theorem pages (h : SameButData s t) : t.pages = s.pages := by rw [h]

theorem cr3 (h : SameButData s t) : t.cr3 = s.cr3 := by rw [h]

theorem kernPgdir (h : SameButData s t) : t.kernPgdir = s.kernPgdir := by rw [h]

theorem take (h : SameButData s t) (p : Nat) : SameButData (s.take p) (t.take p) := by
  unfold SameButData at *
  rw [h]
  rfl

theorem incRef (h : SameButData s t) (p : Nat) : SameButData (s.incRef p) (t.incRef p) := by
  unfold SameButData at *
  rw [h]
  rfl

theorem push (h : SameButData s t) (p : Nat) : SameButData (s.push p) (t.push p) := by
  unfold SameButData at *
  rw [h]
  rfl

theorem decRef (h : SameButData s t) (p : Nat) : SameButData (s.decRef p) (t.decRef p) := by
  unfold SameButData at *
  rw [h]
  rfl

theorem drop (h : SameButData s t) (p : Nat) : SameButData (s.drop p) (t.drop p) := by
  unfold Kernel.drop
  rw [h.pages]
  split
  · exact (h.decRef p).push p
  · exact h.decRef p

theorem store (h : SameButData s t) (p i : Nat) (v w : Word) :
    SameButData (s.store p i v) (t.store p i w) := by
  unfold SameButData at *
  rw [h]
  rfl

theorem fill (h : SameButData s t) (p n : Nat) (w : Word) :
    SameButData (s.fill p n w) (t.fill p n w) := by
  unfold SameButData at *
  rw [h]
  rfl

theorem emit (h : SameButData s t) (x : HwEvent) : SameButData (s.emit x) (t.emit x) := by
  unfold SameButData at *
  rw [h]
  rfl

theorem withTable (h : SameButData s t) (d i p : Nat) :
    SameButData (s.withTable d i p) (t.withTable d i p) :=
  (((h.fill p 1024 0#32).take p).incRef p).store d i _ _

theorem unmap (h : SameButData s t) (p j q : Nat) (va : Word) :
    SameButData (s.unmap p j q va) (t.unmap p j q va) :=
  ((h.drop q).store p j _ _).emit _

/-- page_insert, through tables with the same entry. -/
theorem mapAt (h : SameButData s t) (hentry : t.mem q j = s.mem q j) (p : Nat) (va perm : Word) :
    SameButData (s.mapAt q j p va perm) (t.mapAt q j p va perm) := by
  unfold Kernel.mapAt
  rw [hentry]
  refine SameButData.store ?_ q j _ _
  split
  · exact h.incRef p
  · exact (h.incRef p).unmap q j _ va

end SameButData

namespace SameLive

variable {s t : Kernel} {e : Nat}

theorem status (h : SameLive s t) (e : Nat) : (t.envs e).envStatus = (s.envs e).envStatus := by
  rw [(h e).1]

theorem pgdir (h : SameLive s t) (e : Nat) : (t.envs e).envPgdir = (s.envs e).envPgdir := by
  rw [(h e).1]

theorem congr {u v : Kernel} (h : SameLive s t) (hu : u.envs = s.envs) (hv : v.envs = t.envs) :
    SameLive u v := by
  intro e
  rw [hu, hv]
  exact h e

/-- The same record in the same slot. -/
theorem update {u v : Kernel} {x : Env} (h : SameLive s t) (hu : u.envs = Function.update s.envs e x)
    (hv : v.envs = Function.update t.envs e x) : SameLive u v := by
  intro i
  rw [hu, hv]
  by_cases hi : i = e
  · subst hi
    rw [Function.update_self, Function.update_self]
    exact ⟨rfl, fun _ => rfl⟩
  · rw [Function.update_of_ne hi, Function.update_of_ne hi]
    exact h i

theorem tablePart (h : SameLive s t) (hrest : SameButData s t) : t.tablePart = s.tablePart := by
  have henvs : (fun e => { t.envs e with envTf := zeroTrapframe }) =
      fun e => { s.envs e with envTf := zeroTrapframe } := by
    funext e
    rw [(h e).1]
  have hlist : t.envFreeList = s.envFreeList := by rw [hrest]
  have hcur : t.curenv = s.curenv := by rw [hrest]
  rw [Kernel.tablePart, henvs, hlist, hcur]
  rfl

end SameLive

section inStep

variable {m : Machine} {s₁ s₂ u₁ u₂ v₁ v₂ : Kernel} {L L' : Ledger} {fl fl₁ fl₂ efl : List Nat}
  {d i j p q q' off : Nat} {va w perm : Word} {b : Byte}

namespace InStep

theorem pde (h : InStep s₁ s₂ L u₁ u₂) (hd : d ∈ L.dirs) (hi : i < 1024) : u₂.pde d i = u₁.pde d i :=
  h.tables d (fun hdata => hdata.1 hd) i hi

theorem pte (h : InStep s₁ s₂ L u₁ u₂) (hd : d ∈ L.dirs) (hi : i < 1024) (hown : i ∈ L.own d)
    (hj : j < 1024) : u₂.pte d i j = u₁.pte d i j := by
  apply Kernel.pte_congr (h.pde hd hi)
  intro t ht
  exact h.tables t (fun hdata => hdata.2 d hd i hown ht) j hj

theorem walk (h : InStep s₁ s₂ L u₁ u₂) (hd : d ∈ L.dirs) (hown : pdx va ∈ L.own d) :
    hwWalk u₂.mem d va = hwWalk u₁.mem d va :=
  hwWalk_of_entries (h.pde hd (pdx_lt va)) (h.pte hd (pdx_lt va) hown (ptx_lt va))

/-- Both runs store the same words, or none. -/
theorem step (h : InStep s₁ s₂ L u₁ u₂) (hrest : SameButData v₁ v₂) (henvs : SameLive v₁ v₂)
    (hmem : ∀ q k, v₂.mem q k = v₁.mem q k ∨ (v₁.mem q k = u₁.mem q k ∧ v₂.mem q k = u₂.mem q k))
    (htab : ∀ q, ¬ IsData v₁ L' q → ¬ IsData u₁ L q ∨ ∀ j < 1024, v₂.mem q j = v₁.mem q j) :
    InStep s₁ s₂ L' v₁ v₂ where
  rest := hrest
  envs := henvs
  tables := by
    intro q hq j hj
    rcases htab q hq with hold | hnew
    · rcases hmem q j with hsame | ⟨h1, h2⟩
      · exact hsame
      · rw [h1, h2]
        exact h.tables q hold j hj
    · exact hnew j hj
  bytes := by
    intro q off
    unfold Leftover Kernel.pageByte
    rcases hmem q (off / 4) with hsame | ⟨h1, h2⟩
    · rw [hsame]
      exact Or.inl rfl
    · rw [h1, h2]
      exact h.bytes q off

/-- Nothing is stored. -/
theorem same (h : InStep s₁ s₂ L u₁ u₂) (hrest : SameButData v₁ v₂) (henvs : SameLive v₁ v₂)
    (h₁ : v₁.mem = u₁.mem) (h₂ : v₂.mem = u₂.mem) : InStep s₁ s₂ L v₁ v₂ := by
  refine h.step hrest henvs (fun q k => Or.inr ⟨by rw [h₁], by rw [h₂]⟩) ?_
  intro q hq
  left
  intro hdata
  apply hq
  refine isData_congr ?_ hdata
  intro d _ i _
  rw [Kernel.pde, h₁, Kernel.pde]

theorem take (h : InStep s₁ s₂ L u₁ u₂) (p : Nat) : InStep s₁ s₂ L (u₁.take p) (u₂.take p) :=
  h.same (h.rest.take p) (h.envs.congr rfl rfl) rfl rfl

/-- Pages in hand do not count. -/
theorem ledger (h : InStep s₁ s₂ L u₁ u₂) (hd : L'.dirs = L.dirs) (ho : L'.own = L.own) :
    InStep s₁ s₂ L' u₁ u₂ := by
  refine ⟨h.rest, h.envs, ?_, h.bytes⟩
  intro q
  have hdata : IsData u₁ L' q ↔ IsData u₁ L q := by
    unfold IsData
    rw [hd, ho]
  rw [hdata]
  exact h.tables q

/-- A new page table is zeroed, so both runs see the same one. -/
theorem withTable (h : InStep s₁ s₂ L u₁ u₂) (hb : Balanced u₁ L (p :: fl)) (hd : d ∈ L.dirs)
    (hold : target (u₁.pde d i) = none) :
    InStep s₁ s₂ L (u₁.withTable d i p) (u₂.withTable d i p) := by
  have hready : TableReady u₁ (p :: fl) d i p (u₁.withTable d i p) fl := Or.inr ⟨hold, rfl, rfl⟩
  refine h.step (h.rest.withTable d i p) (h.envs.congr rfl rfl) ?_ ?_
  · intro q k
    rw [Kernel.mem_withTable, Kernel.mem_withTable]
    split
    · exact Or.inl rfl
    · split
      · exact Or.inl rfl
      · exact Or.inr ⟨rfl, rfl⟩
  · intro q hq
    by_cases hqp : q = p
    · right
      intro j hj
      rw [Kernel.mem_withTable, Kernel.mem_withTable]
      split
      · rfl
      · rw [if_pos ⟨hqp, hj⟩, if_pos ⟨hqp, hj⟩]
    · left
      intro hdata
      apply hq
      refine ⟨hdata.1, fun d' hd' k hk ht => ?_⟩
      by_cases he : d' = d ∧ k = i
      · obtain ⟨rfl, rfl⟩ := he
        rw [hb.target_pde_withTable] at ht
        exact hqp (Option.some.inj ht).symm
      · rw [hready.pde_of_ne hb hd' he] at ht
        exact hdata.2 d' hd' k hk ht

/-- The rest of page_insert, through a table both runs share. -/
theorem mapAt (h : InStep s₁ s₂ L u₁ u₂) (hb : Balanced u₁ L fl) (hd : d ∈ L.dirs) (hi : i < 955)
    (ht : target (u₁.pde d i) = some q) (hj : j < 1024) (p : Nat) (va perm : Word) :
    InStep s₁ s₂ L (u₁.mapAt q j p va perm) (u₂.mapAt q j p va perm) := by
  have hown := hb.own_user d hd i hi
  have htable : ¬ IsData u₁ L q := fun hdata => hdata.2 d hd i hown ht
  have hpag : Kernel.Paging u₁ (u₁.mapAt q j p va perm) := Kernel.Paging.mapAt
  have hpag' : Kernel.Paging u₂ (u₂.mapAt q j p va perm) := Kernel.Paging.mapAt
  refine h.step (h.rest.mapAt (h.tables q htable j hj) p va perm)
    (h.envs.congr (by rw [hpag]) (by rw [hpag'])) ?_ ?_
  · intro x k
    rw [Kernel.mem_mapAt, Kernel.mem_mapAt]
    split
    · exact Or.inl rfl
    · exact Or.inr ⟨rfl, rfl⟩
  · intro x hx
    left
    intro hdata
    apply hx
    refine isData_congr ?_ hdata
    intro d' hd' k _
    rw [Kernel.pde, Kernel.mem_mapAt, if_neg]
    · rfl
    · rintro ⟨rfl, -⟩
      exact (hb.table d hd i hown d' ht).2 hd'

/-- pgdir_walk finds, or takes, the same page table in both runs. -/
theorem tableReady (h : InStep s₁ s₂ L u₁ u₂) (hb : Balanced u₁ L fl) (hd : d ∈ L.dirs) (hi : i < 955)
    (hr₁ : TableReady u₁ fl d i q v₁ fl₁) (hr₂ : TableReady u₂ fl d i q' v₂ fl₂) :
    q' = q ∧ InStep s₁ s₂ L v₁ v₂ := by
  have hpde : u₂.pde d i = u₁.pde d i := h.pde hd (by omega)
  rcases hr₁ with ⟨ht, rfl, rfl⟩ | ⟨hnone, rfl, rfl⟩
  · rcases hr₂ with ⟨ht', rfl, -⟩ | ⟨hnone', -, -⟩
    · rw [hpde, ht] at ht'
      cases ht'
      exact ⟨rfl, h⟩
    · rw [hpde, ht] at hnone'
      cases hnone'
  · rcases hr₂ with ⟨ht', -, -⟩ | ⟨-, hcons, rfl⟩
    · rw [hpde, hnone] at ht'
      cases ht'
    · cases hcons
      exact ⟨rfl, h.withTable hb hd hnone⟩

/-- Both runs store the same byte in the same data page. -/
theorem poke (h : InStep s₁ s₂ L u₁ u₂) (hp : IsData u₁ L p) (off : Nat) (b : Byte) :
    InStep s₁ s₂ L (u₁.poke p off b) (u₂.poke p off b) where
  rest := h.rest.store p _ _ _
  envs := h.envs.congr rfl rfl
  tables := by
    intro q hq j hj
    have hqp : q ≠ p := by
      rintro rfl
      exact hq (isData_congr (fun d hd i _ => pde_storeData hp hd) hp)
    have hq' : ¬ IsData u₁ L q := fun hdata => hq (isData_congr (fun d hd i _ => pde_storeData hp hd) hdata)
    rw [Kernel.poke, Kernel.poke, Kernel.mem_store_of_ne hqp, Kernel.mem_store_of_ne hqp]
    exact h.tables q hq' j hj
  bytes := by
    intro q o
    unfold Leftover
    rw [pageByte_poke, pageByte_poke]
    by_cases he : q = p ∧ o = off
    · rw [if_pos he, if_pos he]
      exact Or.inl rfl
    · rw [if_neg he, if_neg he]
      exact h.bytes q o

end InStep

/-- The address spaces are in order in one run when they are in the other. -/
theorem System.inStep (h : System m u₁ L fl efl) (ht : InStep s₁ s₂ L u₁ u₂) :
    System m u₂ L fl efl := by
  have hlt : ∀ d ∈ L.dirs, ∀ i ∈ L.own d, i < 1024 :=
    fun d hd i hi => (mem_kernOwn.mp (h.own_sub hd hi)).1
  have hown := h.balanced.own_user
  -- first the memory, then the saved registers
  have hpaging : Kernel.Paging u₁ { u₁ with mem := u₂.mem, log := u₂.log } := rfl
  have hpde : ∀ d ∈ L.dirs, ∀ i < 1024,
      ({ u₁ with mem := u₂.mem, log := u₂.log } : Kernel).pde d i = u₁.pde d i :=
    fun d hd i hi => ht.pde hd hi
  have hpte : ∀ d ∈ L.dirs, ∀ i ∈ L.own d, ∀ j < 1024,
      ({ u₁ with mem := u₂.mem, log := u₂.log } : Kernel).pte d i j = u₁.pte d i j :=
    fun d hd i hi j hj => ht.pte hd (hlt d hd i hi) hi hj
  have hbal : Balanced { u₁ with mem := u₂.mem, log := u₂.log } L fl :=
    h.balanced.congr rfl rfl rfl (fun d hd i hi => hpde d hd i (hlt d hd i hi))
      fun d hd i hi j hj => hpte d hd i (hown d hd i hi) j hj
  have hmem : System m { u₁ with mem := u₂.mem, log := u₂.log } L fl efl := by
    refine h.paging hpaging hbal rfl rfl rfl (fun d hd i _ hi => hpde d hd i hi)
      (fun d hd i hi => Or.inl (hpde d hd i (by omega)))
      (fun i hi _ j hj => hpte _ h.mem_kern i (h.own_kern ▸ hi) j hj) ?_
    intro d hd i hi j hj p hp
    rw [hpte d hd i (hown d hd i hi) j hj] at hp
    obtain ⟨hdata, hz⟩ := h.data d hd i hi j hj p hp
    exact ⟨isData_congr (fun d hd i hi => hpde d hd i (hlt d hd i hi)) hdata, hz⟩
  refine hmem.congr (h.envs.congr (ht.envs.tablePart ht.rest)) ht.rest.npages ht.rest.pages ?_ rfl
    ht.rest.kernPgdir ?_ fun e _ => ht.envs.pgdir e
  · rw [ht.rest]
  · intro e
    rw [Live, Live, ht.envs.status e]

/-- Before the first step. -/
theorem SameButFree.inStep (h : SameButFree s₁ s₂) (hsys : System m s₁ L fl efl) :
    InStep s₁ s₂ L s₁ s₂ where
  rest := h.rest
  envs := h.envs
  tables := by
    intro q hq j _
    rw [h.mem q]
    intro hfree
    have hf := hsys.balanced.onFreeList_iff.mp hfree
    obtain ⟨hrefs, hdir, -⟩ := hsys.balanced.unreferenced (hsys.balanced.free_lt hf)
      (hsys.balanced.free_ref hf)
    exact hq ⟨hdir, fun d hd i hi => Balanced.table_ne_of_refs hrefs hd hi⟩
  bytes := by
    intro q off
    by_cases hfree : s₁.OnFreeList q
    · exact Or.inr ⟨hfree, rfl, rfl⟩
    · left
      rw [Kernel.pageByte, h.mem q hfree, Kernel.pageByte]

end inStep

section creation

variable {m : Machine} {s₁ s₂ s s' t t' u u' : Kernel} {L : Ledger} {fl fl' efl : List Nat}
  {d e n p v : Nat} {va dst w : Word} {parent : Word} {b : Binary} {ph : Proghdr} {type : EnvType}

/-- env_alloc, apart from memory and the table. -/
theorem fillSlot_rest (s : Kernel) (e p : Nat) (parent : Word) :
    (s.setupVm e p).fillSlot e parent = { s with
      pages := (((s.fill p 1024 0#32).take p).incRef p).pages
      pageFreeList := (((s.fill p 1024 0#32).take p).incRef p).pageFreeList
      envs := Function.update s.envs e (newEnv (s.envs e) e p parent)
      envFreeList := (s.envs e).envLink
      mem := (s.setupVm e p).mem
      log := (s.setupVm e p).log } := by
  have henvs := fillSlot_envs s e p parent
  have hlink : ((s.setupVm e p).fillSlot e parent).envFreeList = (s.envs e).envLink := by
    change (((s.setupVm e p).fillSlot e parent).envs e).envLink = _
    rw [henvs, Function.update_self]
    rfl
  have hrest := setupVm_rest s e p
  have heta : (s.setupVm e p).fillSlot e parent = { s.setupVm e p with
      envs := ((s.setupVm e p).fillSlot e parent).envs
      envFreeList := ((s.setupVm e p).fillSlot e parent).envFreeList } := rfl
  rw [heta, henvs, hlink, hrest]

namespace InStep

theorem setEnv (h : InStep s₁ s₂ L u u') {x x' : Env} (hx : x' = x) (e : Nat) :
    InStep s₁ s₂ L (u.setEnv e x) (u'.setEnv e x') := by
  subst hx
  have hrest : SameButData (u.setEnv e x') (u'.setEnv e x') := by
    have hr := h.rest
    unfold SameButData at *
    rw [hr]
    rfl
  exact h.same hrest (h.envs.update rfl rfl) rfl rfl

theorem loadCr3 (h : InStep s₁ s₂ L u u') (p : Nat) : InStep s₁ s₂ L (u.loadCr3 p) (u'.loadCr3 p) := by
  have hrest : SameButData (u.loadCr3 p) (u'.loadCr3 p) := by
    have hr := h.rest
    unfold SameButData at *
    rw [hr]
    rfl
  exact h.same hrest (h.envs.congr rfl rfl) rfl rfl

/-- env_alloc builds the same directory in both runs. -/
theorem allocated (h : InStep s₁ s₂ L u u') (hsys : System m u L (p :: fl) efl) (e : Nat)
    (parent : Word) : InStep s₁ s₂ (L.addDir p) ((u.setupVm e p).fillSlot e parent)
      ((u'.setupVm e p).fillSlot e parent) := by
  have hk : u'.kernPgdir = u.kernPgdir := h.rest.kernPgdir
  have hne : p ≠ u.kernPgdir := by
    rintro rfl
    exact hsys.balanced.free_dir (by simp) hsys.mem_kern
  have hmem : ∀ x k, ((u.setupVm e p).fillSlot e parent).mem x k = if x = p ∧ k < 1024 then
      if k = pdx uvpt then selfEntry p else if pdx utop ≤ k then u.mem u.kernPgdir k else 0#32
      else u.mem x k := fun x k => mem_setupVm hne
  have hmem' : ∀ x k, ((u'.setupVm e p).fillSlot e parent).mem x k = if x = p ∧ k < 1024 then
      if k = pdx uvpt then selfEntry p else if pdx utop ≤ k then u'.mem u'.kernPgdir k else 0#32
      else u'.mem x k := fun x k => mem_setupVm (hk ▸ hne)
  have hkern : ∀ k < 1024, u'.mem u'.kernPgdir k = u.mem u.kernPgdir k := by
    intro k hlt
    rw [hk]
    exact h.pde hsys.mem_kern hlt
  have hnew : ∀ k < 1024, ((u'.setupVm e p).fillSlot e parent).mem p k =
      ((u.setupVm e p).fillSlot e parent).mem p k := by
    intro k hlt
    rw [hmem, hmem', hkern k hlt]
    simp only [hlt, and_self, if_true]
  have hrec : newEnv (u'.envs e) e p parent = newEnv (u.envs e) e p parent := by
    rw [(h.envs e).1]
    rfl
  have henvs := fillSlot_envs u e p parent
  have henvs' := fillSlot_envs u' e p parent
  have hrest : SameButData ((u.setupVm e p).fillSlot e parent) ((u'.setupVm e p).fillSlot e parent) := by
    have hlink : (u'.envs e).envLink = (u.envs e).envLink := by rw [(h.envs e).1]
    have hpages := ((h.rest.fill p 1024 0#32).take p).incRef p
    have hp := hpages.pages
    have hf : (((u'.fill p 1024 0#32).take p).incRef p).pageFreeList =
        (((u.fill p 1024 0#32).take p).incRef p).pageFreeList := by rw [hpages]
    have hr := h.rest
    unfold SameButData at *
    rw [fillSlot_rest, fillSlot_rest, hlink, hp, hf]
    rw [hr]
  refine h.step hrest (h.envs.update henvs (hrec ▸ henvs')) ?_ ?_
  · intro x k
    by_cases hx : x = p ∧ k < 1024
    · obtain ⟨rfl, hlt⟩ := hx
      exact Or.inl (hnew k hlt)
    · right
      rw [hmem, hmem', if_neg hx, if_neg hx]
      exact ⟨rfl, rfl⟩
  · intro x hx
    by_cases hxp : x = p
    · subst hxp
      exact Or.inr hnew
    · left
      intro hdata
      apply hx
      refine ⟨?_, ?_⟩
      · intro hm
        rcases Ledger.mem_dirs_addDir.mp hm with he | hm
        · exact hxp he
        · exact hdata.1 hm
      · intro d' hd' k hk' ht
        by_cases he : d' = p
        · subst he
          rw [Ledger.own_addDir_self, Ledger.mem_userEntries] at hk'
          rw [Kernel.pde, hmem, if_pos ⟨rfl, by omega⟩, pdx_uvpt, pdx_utop, if_neg (by omega),
            if_neg (by omega), target_zero] at ht
          cases ht
        · have hd := (Ledger.mem_dirs_addDir.mp hd').resolve_left he
          rw [Ledger.own_addDir_of_ne he] at hk'
          rw [Kernel.pde, hmem, if_neg fun hc => he hc.1] at ht
          exact hdata.2 d' hd k hk' ht

end InStep

/-- region_alloc's loop takes the same pages in both runs. -/
theorem regionPage_follows (h : InStep s₁ s₂ L u u') (hsys : System m u L fl efl)
    (he : (u.envs e).envPgdir = some d) (hd : d ∈ L.dirs) (hva : pdx va < 955) :
    Follows (regionPage e va) (regionPage e va) u u' fun _ => InStep s₁ s₂ L := by
  have he' : (u'.envs e).envPgdir = some d := (h.envs.pgdir e).trans he
  have hb' := (hsys.inStep h).balanced
  rcases regionPage_eq hsys.balanced he hd hva with
    ⟨-, -, hno⟩ | ⟨p, fl₀, q, v, fl₁, rfl, hready, hrun⟩
  · intro a t ht
    exact absurd ht (hno t)
  · have htake : InStep s₁ s₂ (L.loosen p) (u.take p) (u'.take p) := (h.take p).ledger rfl rfl
    have hbal := hsys.balanced.take
    rcases regionPage_eq hb' he' hd hva with
      ⟨hlen, hnone, -⟩ | ⟨p', fl₀', q', v', fl₁', hcons, hready', hrun'⟩
    · -- the first run found the table, or a page for it
      exfalso
      have hpde : u'.pde d (pdx va) = u.pde d (pdx va) := h.pde hd (by omega)
      have hnone := hnone (by simp)
      rw [hpde] at hnone
      rcases hready with ⟨ht, -, -⟩ | ⟨-, rfl, -⟩
      · change target (u.pde d (pdx va)) = some q at ht
        rw [hnone] at ht
        cases ht
      · simp at hlen
    · cases hcons
      obtain ⟨rfl, hv⟩ := htake.tableReady hbal hd hva hready hready'
      obtain ⟨hbv, ht⟩ := hready.balanced hbal hd (hbal.own_user d hd _ hva)
      exact Follows.of_ok hrun hrun' ((hv.mapAt hbv hd hva ht (ptx_lt va) p va _).ledger rfl rfl)

end creation

end Jos
