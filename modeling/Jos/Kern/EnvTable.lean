import Jos.Kern.MemInitSpec
import Jos.Kern.Trap

/-! The environment table: its free list, its ids, and who is running. -/
namespace Jos

open Prog

/-- The part of the state that only env.c and trap.c change. -/
def Kernel.envPart (s : Kernel) : (Nat → Env) × Option Nat × Option Nat :=
  (s.envs, s.envFreeList, s.curenv)

section keeps

theorem keeps_forRange {ρ : Type} {v : Kernel → ρ} {body : Nat → Kern Unit}
    (h : ∀ k, Keeps v (body k)) (n : Nat) : Keeps v (forRange body n) := by
  induction n with
  | zero => exact keeps_pure ()
  | succ n ih => exact ih.bind fun _ => h n

theorem kaddr_observes (pa : Word) : Observes (kaddr pa) :=
  observes_read.bind fun _ => (observes_check _ _).bind fun _ => observes_pure _

theorem pa2page_observes (pa : Word) : Observes (pa2page pa) :=
  observes_read.bind fun _ => (observes_check _ _).bind fun _ => observes_pure _

theorem pgdirWalk_observes (d : Nat) (va : Word) : Observes (pgdirWalk d va false) := by
  refine observes_read.bind fun s => observes_ite ?_ (observes_pure _)
  exact (kaddr_observes _).bind fun _ => observes_pure _

theorem pageLookup_observes (d : Nat) (va : Word) : Observes (pageLookup d va) := by
  refine (pgdirWalk_observes d va).bind fun o => ?_
  cases o with
  | none => exact observes_pure _
  | some r =>
    exact observes_read.bind fun s =>
      observes_ite ((pa2page_observes _).bind fun _ => observes_pure _) (observes_pure _)

theorem pageAlloc_keeps (flags : Word) : Keeps Kernel.envPart (pageAlloc flags) := by
  refine keeps_read.bind fun s => ?_
  cases s.pageFreeList with
  | none => exact keeps_pure none
  | some p =>
    have hrest : Keeps Kernel.envPart (do
        update fun s => { s with pageFreeList := (s.pages p).ppLink }
        update fun s => s.setLink p none
        pure (some p) : Kern (Option Nat)) :=
      Keeps.bind (keeps_update fun _ => rfl) fun _ =>
        Keeps.bind (keeps_update fun _ => rfl) fun _ => keeps_pure _
    refine keeps_ite ?_ hrest
    exact (kaddr_observes _).keeps.bind fun _ => Keeps.bind (keeps_update fun _ => rfl) fun _ => hrest

theorem incRef_keeps (pp : Nat) : Keeps Kernel.envPart (incRef pp) := keeps_update fun _ => rfl

/-- All but the pages' own records. -/
def Kernel.besidePages (s : Kernel) : Kernel :=
  { s with pages := fun _ => ⟨none, 0⟩, pageFreeList := none }

theorem pageFree_keepsBeside (pp : Nat) : Keeps Kernel.besidePages (pageFree pp) :=
  keeps_read.bind fun _ => (keeps_check _ _).bind fun _ => (keeps_check _ _).bind fun _ =>
    Keeps.bind (keeps_update fun _ => rfl) fun _ => keeps_update fun _ => rfl

theorem pageDecref_keepsBeside (pp : Nat) : Keeps Kernel.besidePages (pageDecref pp) :=
  Keeps.bind (keeps_update fun _ => rfl) fun _ => keeps_read.bind fun _ =>
    keeps_ite (pageFree_keepsBeside pp) (keeps_pure _)

theorem pageDecref_keeps (pp : Nat) : Keeps Kernel.envPart (pageDecref pp) :=
  (pageDecref_keepsBeside pp).comp Kernel.envPart

theorem pgdirWalk_keeps (pgdir : Nat) (va : Word) (create : Bool) :
    Keeps Kernel.envPart (pgdirWalk pgdir va create) := by
  refine keeps_read.bind fun s => keeps_ite ?_ (keeps_ite ?_ (keeps_pure _))
  · exact (kaddr_observes _).keeps.bind fun _ => keeps_pure _
  · refine (pageAlloc_keeps _).bind fun o => ?_
    cases o with
    | none => exact keeps_pure _
    | some p =>
      exact (incRef_keeps p).bind fun _ => Keeps.bind (keeps_update fun _ => rfl) fun _ =>
        (kaddr_observes _).keeps.bind fun _ => keeps_pure _

theorem pageRemove_keeps (pgdir : Nat) (va : Word) : Keeps Kernel.envPart (pageRemove pgdir va) := by
  refine (pageLookup_observes _ _).keeps.bind fun o => ?_
  rcases o with ⟨_ | pp, _ | r⟩
  · exact keeps_pure _
  · exact keeps_pure _
  · exact keeps_pure _
  · exact keeps_read.bind fun _ => (keeps_check _ _).bind fun _ => (pageDecref_keeps pp).bind fun _ =>
      Keeps.bind (keeps_update fun _ => rfl) fun _ => keeps_update fun _ => rfl

theorem pageInsert_keeps (pgdir pp : Nat) (va perm : Word) :
    Keeps Kernel.envPart (pageInsert pgdir pp va perm) := by
  refine (pgdirWalk_keeps _ _ _).bind fun o => ?_
  cases o with
  | none => exact keeps_pure _
  | some r =>
    exact (incRef_keeps pp).bind fun _ => (pageRemove_keeps _ _).bind fun _ =>
      Keeps.bind (keeps_update fun _ => rfl) fun _ => keeps_pure _

theorem envPgdir_observes (e : Nat) : Observes (envPgdir e) := by
  refine observes_read.bind fun s => ?_
  cases (s.envs e).envPgdir with
  | none => exact observes_stop _
  | some pgdir => exact observes_pure _

theorem envPgdirPa_observes (e : Nat) : Observes (envPgdirPa e) := by
  refine observes_read.bind fun s => ?_
  cases (s.envs e).envPgdir with
  | none => exact observes_stop _
  | some pgdir => exact observes_pure _

theorem lcr3_keeps (pgdir : Nat) : Keeps Kernel.envPart (lcr3 pgdir) := keeps_update fun _ => rfl

theorem copyKernelEntry_keeps (pgdir i : Nat) : Keeps Kernel.envPart (copyKernelEntry pgdir i) :=
  keeps_update fun _ => rfl

theorem regionAlloc_keeps (e : Nat) (va len : Word) : Keeps Kernel.envPart (regionAlloc e va len) := by
  refine keeps_forRange (fun k => (pageAlloc_keeps _).bind fun o => ?_) _
  cases o with
  | none => exact keeps_stop _
  | some pp =>
    exact (envPgdir_observes e).keeps.bind fun _ => (pageInsert_keeps _ _ _ _).bind fun _ =>
      keeps_check _ _

theorem storeByte_keeps (va : Word) (b : Byte) : Keeps Kernel.envPart (storeByte va b) := by
  refine keeps_read.bind fun s => ?_
  cases hwWalk s.mem s.cr3 va with
  | none => exact keeps_stop _
  | some x => exact (keeps_check _ _).bind fun _ => keeps_update fun _ => rfl

theorem loadByte_observes (va : Word) : Observes (loadByte va) := by
  refine observes_read.bind fun s => ?_
  cases hwWalk s.mem s.cr3 va with
  | none => exact observes_stop _
  | some x => exact observes_pure _

theorem loadSegment_keeps (e : Nat) (b : Binary) (ph : Proghdr) :
    Keeps Kernel.envPart (loadSegment e b ph) := by
  refine keeps_ite ?_ (keeps_pure _)
  refine (regionAlloc_keeps _ _ _).bind fun _ => Keeps.bind (keeps_ite ?_ ?_) fun _ => ?_
  · exact keeps_forRange (fun k => storeByte_keeps _ _) _
  · exact keeps_forRange (fun k => storeByte_keeps _ _) _
  · exact keeps_forRange (fun k => storeByte_keeps _ _) _

theorem monitor_keeps (session : List PgMod) : Keeps Kernel.envPart (monitor session) := by
  induction session with
  | nil => exact keeps_pure _
  | cons c session ih =>
    refine Keeps.bind (keeps_read.bind fun s => keeps_ite (keeps_pure _) ?_) fun _ => ih
    refine (pgdirWalk_keeps _ _ _).bind fun o => ?_
    cases o with
    | none => exact keeps_pure _
    | some pte =>
      refine keeps_update fun s => ?_
      dsimp only
      split <;> rfl

theorem printString_observes (fuel : Nat) (p : Word) (precision : Int) :
    Observes (printString fuel p precision) := by
  induction fuel generalizing p precision with
  | zero => exact observes_stop _
  | succ fuel ih =>
    refine (loadByte_observes p).bind fun ch => observes_ite (observes_pure _) ?_
    refine observes_ite ((ih _ _).bind fun _ => observes_pure _) ?_
    exact observes_ite ((ih _ _).bind fun _ => observes_pure _) (observes_pure _)

end keeps

section ids

variable {w : Word} {e i n : Nat}

theorem toNat_maskIndex (w : Word) : (w &&& ~~~0x3FF#32).toNat = w.toNat / 1024 * 1024 := by
  have hw : w &&& ~~~0x3FF#32 = (w >>> 10) <<< 10 := by
    ext i hi
    have hm : (0x3FF#32)[i] = decide (i < 10) := by
      rw [← BitVec.getLsbD_eq_getElem, BitVec.getLsbD]
      exact Nat.testBit_two_pow_sub_one 10 i
    simp only [BitVec.getElem_and, BitVec.getElem_not, hm, BitVec.getElem_shiftLeft]
    by_cases h : i < 10
    · simp [h]
    · simp [h, BitVec.getLsbD_eq_getElem hi, show 10 + (i - 10) = i by omega]
  have := w.isLt
  rw [hw, BitVec.toNat_shiftLeft, BitVec.toNat_ushiftRight, Nat.shiftLeft_eq,
    Nat.shiftRight_eq_div_pow]
  omega

theorem envx_eq (w : Word) : envx w = w.toNat % 1024 := by
  rw [envx, BitVec.toNat_and]
  exact Nat.and_two_pow_sub_one_eq_mod _ 10

theorem envx_lt (w : Word) : envx w < nenv := by
  rw [envx_eq, nenv]
  omega

/-- The generation env_alloc computes, as a number. -/
theorem toNat_nextEnvId (he : e < nenv) : (nextEnvId w e).toNat =
    (if (w.toNat + 4096) % 2 ^ 32 / 1024 * 1024 = 0 ∨
        2 ^ 31 ≤ (w.toNat + 4096) % 2 ^ 32 / 1024 * 1024 then
      4096 else (w.toNat + 4096) % 2 ^ 32 / 1024 * 1024) + e := by
  unfold nenv at he
  have hg : ((w + 1#32 <<< 12) &&& ~~~0x3FF#32).toNat = (w.toNat + 4096) % 2 ^ 32 / 1024 * 1024 := by
    rw [toNat_maskIndex, BitVec.toNat_add]
    rfl
  have hor : ∀ g : Word, g.toNat % 1024 = 0 → (g ||| BitVec.ofNat 32 e).toNat = g.toNat + e := by
    intro g h0
    have hlow := Nat.two_pow_add_eq_or_of_lt (i := 10) (b := e) he (g.toNat / 1024)
    rw [BitVec.toNat_or, BitVec.toNat_ofNat, Nat.mod_eq_of_lt (by omega)]
    rw [show 2 ^ 10 * (g.toNat / 1024) = g.toNat by omega] at hlow
    exact hlow.symm
  have hneg : ((w + 1#32 <<< 12) &&& ~~~0x3FF#32).toInt ≤ 0 ↔
      (w.toNat + 4096) % 2 ^ 32 / 1024 * 1024 = 0 ∨
        2 ^ 31 ≤ (w.toNat + 4096) % 2 ^ 32 / 1024 * 1024 := by
    rw [BitVec.toInt_eq_toNat_cond, hg]
    split <;> omega
  unfold nextEnvId
  simp only [hneg]
  split
  · rw [hor _ (by decide)]
    rfl
  · rw [hor _ (by rw [hg]; omega), hg]

/-- An id env_alloc gives out is positive and belongs to its slot. -/
theorem nextEnvId_valid (he : e < nenv) :
    0 < (nextEnvId w e).toInt ∧ envx (nextEnvId w e) = e := by
  have h := toNat_nextEnvId (w := w) he
  unfold nenv at he
  constructor
  · rw [BitVec.toInt_eq_toNat_cond, h]
    split <;> split <;> omega
  · rw [envx_eq, h]
    split <;> omega

/-- The id slot `i` gets when it is allocated for the `n + 1`-st time. -/
def idAt (i n : Nat) : Word := BitVec.ofNat 32 ((n % (2 ^ 19 - 1) + 1) * 4096 + i)

theorem toNat_idAt (hi : i < nenv) : (idAt i n).toNat = (n % (2 ^ 19 - 1) + 1) * 4096 + i := by
  unfold nenv at hi
  rw [idAt, BitVec.toNat_ofNat]
  omega

theorem nextEnvId_zero (hi : i < nenv) : nextEnvId 0 i = idAt i 0 := by
  apply BitVec.eq_of_toNat_eq
  rw [toNat_nextEnvId hi, toNat_idAt hi, show (0 : Word).toNat = 0 from rfl]
  split <;> omega

theorem nextEnvId_idAt (hi : i < nenv) : nextEnvId (idAt i n) i = idAt i (n + 1) := by
  apply BitVec.eq_of_toNat_eq
  rw [toNat_nextEnvId hi, toNat_idAt hi, toNat_idAt hi]
  unfold nenv at hi
  obtain ⟨g, hg⟩ : ∃ g, n % (2 ^ 19 - 1) = g := ⟨_, rfl⟩
  have hlt : g < 2 ^ 19 - 1 := by omega
  by_cases hlast : g + 1 = 2 ^ 19 - 1
  · have hmod : (n + 1) % (2 ^ 19 - 1) = 0 := by omega
    rw [hmod, hg, if_pos (by omega)]
  · have hmod : (n + 1) % (2 ^ 19 - 1) = g + 1 := by omega
    rw [hmod, hg, if_neg (by omega)]
    omega

theorem idAt_valid (hi : i < nenv) : 0 < (idAt i n).toInt ∧ envx (idAt i n) = i := by
  cases n with
  | zero =>
    rw [← nextEnvId_zero hi]
    exact nextEnvId_valid hi
  | succ n =>
    rw [← nextEnvId_idAt hi]
    exact nextEnvId_valid hi

/-- The generations come back only after 2^19 - 1 allocations. -/
theorem idAt_ne (hi : i < nenv) {k : Nat} (hlt : n < k) (hk : k - n < 2 ^ 19 - 1) :
    idAt i n ≠ idAt i k := by
  intro h
  have h := congrArg BitVec.toNat h
  rw [toNat_idAt hi, toNat_idAt hi] at h
  omega

end ids

section effects

variable {s t u : Kernel} {e c : Nat} {r : Int} {st st' : Option Nat} {parent : Word} {b : Binary}
  {type : EnvType}

theorem envPart_eq_iff : t.envPart = s.envPart ↔
    t.envs = s.envs ∧ t.envFreeList = s.envFreeList ∧ t.curenv = s.curenv := by
  simp [Kernel.envPart]

/-- `t` has the environment table of `s` with slot `e` set to `x`. -/
def SetsEnv (s t : Kernel) (e : Nat) (x : Env) : Prop := t.envPart = (s.setEnv e x).envPart

theorem SetsEnv.envs {x : Env} (h : SetsEnv s t e x) : t.envs = Function.update s.envs e x :=
  (envPart_eq_iff.mp h).1

theorem SetsEnv.envFreeList {x : Env} (h : SetsEnv s t e x) : t.envFreeList = s.envFreeList :=
  (envPart_eq_iff.mp h).2.1

theorem SetsEnv.curenv {x : Env} (h : SetsEnv s t e x) : t.curenv = s.curenv :=
  (envPart_eq_iff.mp h).2.2

/-- Setting a slot again forgets what it was set to before. -/
theorem SetsEnv.again {x : Env} (h : SetsEnv s t e x) (f : Env → Env) :
    SetsEnv s (t.setEnv e (f (t.envs e))) e (f x) := by
  unfold SetsEnv Kernel.envPart
  simp only [Kernel.setEnv, h.envs, h.envFreeList, h.curenv, Function.update_idem,
    Function.update_self]

theorem pageAlloc_eq_none {flags : Word} (h : pageAlloc flags s = .ok none t) :
    s.pageFreeList = none ∧ t = s := by
  cases hf : s.pageFreeList with
  | none =>
    rw [pageAlloc_none hf] at h
    cases h
    exact ⟨rfl, rfl⟩
  | some p =>
    -- a page was there, so the call cannot have returned without one
    have hrest : ∀ u, (do
        update fun s => { s with pageFreeList := (s.pages p).ppLink }
        update fun s => s.setLink p none
        pure (some p) : Kern (Option Nat)) u ≠ .ok none t := by
      intro u h
      obtain ⟨_, _, -, h⟩ := bind_eq_ok.mp h
      obtain ⟨_, _, -, h⟩ := bind_eq_ok.mp h
      cases (pure_eq_ok.mp h).1
    rw [pageAlloc, bind_ok (read_apply s)] at h
    simp only [hf, Prog.ite_apply] at h
    split at h
    · obtain ⟨_, _, -, h⟩ := bind_eq_ok.mp h
      obtain ⟨_, _, -, h⟩ := bind_eq_ok.mp h
      exact absurd h (hrest _)
    · exact absurd h (hrest _)

theorem envSetupVm_effect (h : envSetupVm e s = .ok r t) :
    (r = -eNoMem ∧ t = s) ∨
    (r = 0 ∧ ∃ p, SetsEnv s t e { s.envs e with envPgdir := some p }) := by
  rw [envSetupVm] at h
  obtain ⟨o, u, halloc, h⟩ := bind_eq_ok.mp h
  have hkeep := pageAlloc_keeps _ _ _ _ halloc
  cases o with
  | none =>
    obtain ⟨rfl, rfl⟩ := pure_eq_ok.mp h
    exact Or.inl ⟨rfl, (pageAlloc_eq_none halloc).2⟩
  | some p =>
    refine Or.inr ?_
    obtain ⟨_, u₁, hinc, h⟩ := bind_eq_ok.mp h
    obtain ⟨kva, u₂, hkva, h⟩ := bind_eq_ok.mp h
    obtain ⟨_, u₃, hmod, h⟩ := bind_eq_ok.mp h
    obtain ⟨_, u₄, hloop, h⟩ := bind_eq_ok.mp h
    obtain ⟨_, u₅, hstore, h⟩ := bind_eq_ok.mp h
    obtain ⟨rfl, rfl⟩ := pure_eq_ok.mp h
    have hcopy : Keeps Kernel.envPart (forRange (fun k => copyKernelEntry kva (pdx utop + k))
        (npdentries - pdx utop)) := keeps_forRange (fun k => copyKernelEntry_keeps _ _) _
    have h₂ : u₂.envPart = s.envPart := by
      rw [kaddr_observes _ _ _ _ hkva, incRef_keeps _ _ _ _ hinc, hkeep]
    have h₅ : u₅.envPart = u₃.envPart := by
      have h₄ : u₄.envPart = u₃.envPart := hcopy _ _ _ hloop
      obtain rfl := update_eq_ok.mp hstore
      exact h₄
    refine ⟨rfl, kva, ?_⟩
    obtain rfl := update_eq_ok.mp hmod
    unfold SetsEnv
    rw [h₅]
    obtain ⟨he, hf, hc⟩ := envPart_eq_iff.mp h₂
    simp only [Kernel.envPart, Kernel.setEnv, he, hf, hc]

/-- The slot env_alloc fills in. -/
def newEnv (x : Env) (e p : Nat) (parent : Word) : Env :=
  { x with
    envPgdir := some p
    envId := nextEnvId x.envId e
    envParentId := parent
    envType := .user
    envStatus := .runnable
    envRuns := 0
    envTf := freshTrapframe }

/-- env_alloc fails and changes nothing, or takes the head of the list. -/
theorem envAlloc_effect (h : envAlloc st parent s = .ok (r, st') t) :
    (r < 0 ∧ t = s ∧ st' = st) ∨
    (r = 0 ∧ ∃ e p u, s.envFreeList = some e ∧ st' = some e ∧
      SetsEnv s u e (newEnv (s.envs e) e p parent) ∧
      t = { u with envFreeList := (s.envs e).envLink }) := by
  rw [envAlloc, bind_ok (read_apply s)] at h
  cases hf : s.envFreeList with
  | none =>
    simp only [hf] at h
    obtain ⟨he, rfl⟩ := pure_eq_ok.mp h
    cases he
    exact Or.inl ⟨by decide, rfl, rfl⟩
  | some e =>
    simp only [hf] at h
    obtain ⟨r', u, hsetup, hrest⟩ := bind_eq_ok.mp h
    rcases envSetupVm_effect hsetup with ⟨rfl, rfl⟩ | ⟨rfl, p, hset⟩
    · rw [Prog.ite_apply, if_pos (by decide)] at hrest
      obtain ⟨he, rfl⟩ := pure_eq_ok.mp hrest
      cases he
      exact Or.inl ⟨by decide, rfl, rfl⟩
    · rw [Prog.ite_apply, if_neg (by decide)] at hrest
      obtain ⟨_, u₁, hmod, hrest⟩ := bind_eq_ok.mp hrest
      obtain ⟨_, u₂, hlist, hrest⟩ := bind_eq_ok.mp hrest
      obtain ⟨he, rfl⟩ := pure_eq_ok.mp hrest
      cases he
      obtain rfl := update_eq_ok.mp hmod
      obtain rfl := update_eq_ok.mp hlist
      refine Or.inr ⟨rfl, e, p, _, rfl, rfl, hset.again fun x =>
        { x with
          envId := nextEnvId x.envId e
          envParentId := parent
          envType := .user
          envStatus := .runnable
          envRuns := 0
          envTf := freshTrapframe }, ?_⟩
      have hlink : ((u.setEnv e { u.envs e with
          envId := nextEnvId (u.envs e).envId e
          envParentId := parent
          envType := .user
          envStatus := .runnable
          envRuns := 0
          envTf := freshTrapframe }).envs e).envLink = (s.envs e).envLink := by
        simp [Kernel.setEnv, hset.envs]
      rw [hlink]

/-- The frame returns to user mode, with interrupts off. -/
def UserFrame (tf : Trapframe) : Prop := tf.tfCs &&& 3 = 3 ∧ tf.tfEflags &&& flIf = 0

theorem userFrame_fresh : UserFrame freshTrapframe := ⟨by decide, by decide⟩

/-- `t` is `s` after slot `e`, the head of the list, has been filled in. -/
def Allocates (s t : Kernel) (e : Nat) : Prop :=
  s.envFreeList = some e ∧ t.envFreeList = (s.envs e).envLink ∧ t.curenv = s.curenv ∧
    ∃ x, t.envs = Function.update s.envs e x ∧ x.envLink = (s.envs e).envLink ∧
      x.envStatus = .runnable ∧ x.envId = nextEnvId (s.envs e).envId e ∧ x.envPgdir ≠ none ∧
      UserFrame x.envTf

theorem envAlloc_allocates (h : envAlloc st parent s = .ok (r, st') t) :
    (r < 0 ∧ t = s ∧ st' = st) ∨ (r = 0 ∧ ∃ e, st' = some e ∧ Allocates s t e) := by
  rcases envAlloc_effect h with hfail | ⟨rfl, e, p, u, hhead, rfl, hset, rfl⟩
  · exact Or.inl hfail
  · exact Or.inr ⟨rfl, e, rfl, hhead, rfl, hset.curenv, _, hset.envs, rfl, rfl, rfl, by simp [newEnv],
      userFrame_fresh⟩

/-- Where load_icode lets the environment start. -/
theorem SetsEnv.startAt {x : Env} (h : SetsEnv s t e x) (esp eip : Word) :
    SetsEnv s
      ((t.setEnv e { t.envs e with envTf := { (t.envs e).envTf with tfEsp := esp } }).setEnv e
        { (t.setEnv e { t.envs e with envTf := { (t.envs e).envTf with tfEsp := esp } }).envs e with
          envTf := { ((t.setEnv e { t.envs e with
            envTf := { (t.envs e).envTf with tfEsp := esp } }).envs e).envTf with tfEip := eip } }) e
      { x with envTf := { x.envTf with tfEsp := esp, tfEip := eip } } :=
  (h.again fun x => { x with envTf := { x.envTf with tfEsp := esp } }).again
    fun x => { x with envTf := { x.envTf with tfEip := eip } }

theorem loadIcode_effect (h : loadIcode e b s = .ok () t) : SetsEnv s t e { s.envs e with
    envTf := { (s.envs e).envTf with tfEsp := ustacktop, tfEip := b.eEntry } } := by
  rw [loadIcode] at h
  obtain ⟨pgdir, u₁, hpa, h⟩ := bind_eq_ok.mp h
  obtain ⟨_, u₂, hcr, h⟩ := bind_eq_ok.mp h
  obtain ⟨_, u₃, hmagic, h⟩ := bind_eq_ok.mp h
  obtain ⟨_, u₄, hloop, h⟩ := bind_eq_ok.mp h
  rw [bind_ok (read_apply u₄)] at h
  obtain ⟨_, u₅, hcr', h⟩ := bind_eq_ok.mp h
  obtain ⟨_, u₆, hstack, h⟩ := bind_eq_ok.mp h
  obtain ⟨_, u₇, hesp, heip⟩ := bind_eq_ok.mp h
  have hsegs := keeps_forRange (v := Kernel.envPart) (fun k => loadSegment_keeps e b (b.proghdr k))
    b.rounds
  have h₆ : u₆.envPart = s.envPart := by
    rw [regionAlloc_keeps _ _ _ _ _ _ hstack, lcr3_keeps _ _ _ _ hcr', hsegs _ _ _ hloop,
      observes_check _ _ _ _ _ hmagic, lcr3_keeps _ _ _ _ hcr, envPgdirPa_observes e _ _ _ hpa]
  have hset : SetsEnv s u₆ e (s.envs e) := by
    unfold SetsEnv
    rw [h₆]
    simp [Kernel.envPart, Kernel.setEnv]
  obtain rfl := update_eq_ok.mp hesp
  obtain rfl := update_eq_ok.mp heip
  exact hset.startAt ustacktop b.eEntry

theorem envCreate_allocates (h : envCreate b type s = .ok () t) : ∃ e, Allocates s t e := by
  rw [envCreate] at h
  obtain ⟨⟨r, st'⟩, u, halloc, h⟩ := bind_eq_ok.mp h
  rcases envAlloc_allocates halloc with
    ⟨-, rfl, rfl⟩ | ⟨rfl, e, rfl, hhead, hlist, hcur, x, hx, hlink, hst, hid, hdir, htf⟩
  · exact absurd h stop_ne_ok
  · refine ⟨e, hhead, ?_⟩
    obtain ⟨_, u₁, hcheck, h⟩ := bind_eq_ok.mp h
    obtain ⟨-, rfl⟩ := check_eq_ok.mp hcheck
    obtain ⟨_, u₂, hmod, hload⟩ := bind_eq_ok.mp h
    obtain rfl := update_eq_ok.mp hmod
    have hset := loadIcode_effect hload
    refine ⟨hset.envFreeList.trans hlist, hset.curenv.trans hcur, { x with
      envParentId := 0
      envType := type
      envTf := { x.envTf with tfEsp := ustacktop, tfEip := b.eEntry } }, ?_, ?_⟩
    · rw [hset.envs]
      simp only [Kernel.setEnv, hx, Function.update_idem, Function.update_self]
    · exact ⟨hlink, hst, hid, hdir, htf⟩

theorem leaveEnv_keeps (e : Nat) : Keeps Kernel.envPart (leaveEnv e) :=
  keeps_read.bind fun _ => keeps_ite (lcr3_keeps _) (keeps_pure _)

theorem freePte_keeps (pgdir pt pdeno pteno : Nat) :
    Keeps Kernel.envPart (freePte pgdir pt pdeno pteno) :=
  keeps_read.bind fun _ => keeps_ite (pageRemove_keeps _ _) (keeps_pure _)

theorem freePde_keeps (e pdeno : Nat) : Keeps Kernel.envPart (freePde e pdeno) := by
  refine (envPgdir_observes e).keeps.bind fun pgdir => keeps_read.bind fun s =>
    keeps_ite ?_ (keeps_pure _)
  refine (kaddr_observes _).keeps.bind fun pt => ?_
  have hloop : Keeps Kernel.envPart
      (forRange (fun pteno => freePte pgdir pt pdeno pteno) nptentries) :=
    keeps_forRange (fun pteno => freePte_keeps pgdir pt pdeno pteno) nptentries
  refine hloop.bind fun _ => ?_
  exact Keeps.bind (keeps_update fun _ => rfl) fun _ =>
    (pa2page_observes _).keeps.bind fun pp => pageDecref_keeps pp

/-- env_free pushes the slot on the list and keeps its id. -/
theorem envFree_effect (h : envFree e s = .ok () t) :
    t.envFreeList = some e ∧ t.curenv = s.curenv ∧ t.envs = Function.update s.envs e
      { s.envs e with envPgdir := none, envStatus := .free, envLink := s.envFreeList } := by
  rw [envFree] at h
  generalize pdx utop = n at h
  obtain ⟨_, u₁, hleave, h⟩ := bind_eq_ok.mp h
  obtain ⟨_, u₂, hloop, h⟩ := bind_eq_ok.mp h
  obtain ⟨pgdir, u₃, hpa, h⟩ := bind_eq_ok.mp h
  obtain ⟨_, u₄, hdir, h⟩ := bind_eq_ok.mp h
  obtain ⟨pp, u₅, hpp, h⟩ := bind_eq_ok.mp h
  obtain ⟨_, u₆, hdec, h⟩ := bind_eq_ok.mp h
  obtain ⟨_, u₇, hfree, h⟩ := bind_eq_ok.mp h
  obtain ⟨_, u₈, hlink, hlist⟩ := bind_eq_ok.mp h
  have h₃ : u₃.envPart = s.envPart := by
    rw [envPgdirPa_observes e _ _ _ hpa, keeps_forRange (freePde_keeps e) _ _ _ _ hloop,
      leaveEnv_keeps _ _ _ _ hleave]
  have h₆ : u₆.envPart = u₄.envPart := by
    rw [pageDecref_keeps _ _ _ _ hdec, pa2page_observes _ _ _ _ hpp]
  obtain ⟨he, hf, hc⟩ := envPart_eq_iff.mp h₃
  obtain rfl := update_eq_ok.mp hdir
  obtain ⟨he', hf', hc'⟩ := envPart_eq_iff.mp h₆
  obtain rfl := update_eq_ok.mp hfree
  obtain rfl := update_eq_ok.mp hlink
  obtain rfl := update_eq_ok.mp hlist
  refine ⟨rfl, hc'.trans hc, ?_⟩
  simp only [Kernel.setEnv, he', hf', he, hf, Function.update_idem, Function.update_self]

theorem envDestroy_ne_ok : envDestroy e s ≠ .ok () t := by
  intro h
  obtain ⟨_, _, -, h⟩ := bind_eq_ok.mp h
  exact stop_ne_ok h

/-- env_run makes `e` the running environment. -/
theorem envRun_effect (h : envRun e s = .ok () t) :
    t.envFreeList = s.envFreeList ∧ t.curenv = some e ∧
      t.envs = Function.update s.preempt.envs e
        { s.preempt.envs e with
          envStatus := .running, envRuns := (s.preempt.envs e).envRuns + 1 } := by
  rw [envRun] at h
  obtain ⟨_, u₁, hpre, h⟩ := bind_eq_ok.mp h
  obtain ⟨_, u₂, hcur, h⟩ := bind_eq_ok.mp h
  obtain ⟨_, u₃, hrun, h⟩ := bind_eq_ok.mp h
  obtain ⟨_, u₄, hruns, h⟩ := bind_eq_ok.mp h
  obtain ⟨pgdir, u₅, hpa, hcr⟩ := bind_eq_ok.mp h
  have h₅ : t.envPart = u₄.envPart := by
    rw [lcr3_keeps _ _ _ _ hcr, envPgdirPa_observes e _ _ _ hpa]
  obtain ⟨he, hf, hc⟩ := envPart_eq_iff.mp h₅
  obtain rfl := update_eq_ok.mp hpre
  obtain rfl := update_eq_ok.mp hcur
  obtain rfl := update_eq_ok.mp hrun
  obtain rfl := update_eq_ok.mp hruns
  have hpf : s.preempt.envFreeList = s.envFreeList := by
    unfold Kernel.preempt
    split
    · rfl
    · split <;> rfl
  refine ⟨hf.trans hpf, hc, ?_⟩
  rw [he]
  simp only [Kernel.setEnv, Function.update_idem, Function.update_self]

end effects

section traps

/-- The environment table without the saved registers. -/
def Kernel.tablePart (s : Kernel) : (Nat → Env) × Option Nat × Option Nat :=
  (fun e => { s.envs e with envTf := zeroTrapframe }, s.envFreeList, s.curenv)

theorem tablePart_of_envPart {α : Type} {x : Kern α} (h : Keeps Kernel.envPart x) :
    Keeps Kernel.tablePart x :=
  h.comp fun part => (fun e => { part.1 e with envTf := zeroTrapframe }, part.2)

theorem modifyTf_keeps (e : Nat) (f : Trapframe → Trapframe) :
    Keeps Kernel.tablePart (modifyEnv e fun x => { x with envTf := f x.envTf }) := by
  refine keeps_update fun s => ?_
  have henvs : (fun i => { (Function.update s.envs e { s.envs e with envTf := f (s.envs e).envTf }) i
      with envTf := zeroTrapframe }) = fun i => { s.envs i with envTf := zeroTrapframe } := by
    funext i
    by_cases hi : i = e
    · simp [hi]
    · simp [hi]
  simp only [Kernel.tablePart, Kernel.setEnv]
  rw [henvs]

variable {ρ : Type} {v : Kernel → ρ}

theorem envDestroy_keeps (e : Nat) : Keeps v (envDestroy e) :=
  fun _ _ _ h => absurd h envDestroy_ne_ok

theorem deref_observes (o : Option Nat) : Observes (deref o) := by
  cases o with
  | none => exact observes_stop _
  | some e => exact observes_pure e

theorem userMemScan_keeps (e : Nat) (perm : Word) (n : Nat) (scanner : Word) :
    Keeps Kernel.envPart (userMemScan e perm n scanner) := by
  have hfail : ∀ va, Keeps Kernel.envPart (failAt va) := fun va =>
    Keeps.bind (keeps_update fun _ => rfl) fun _ => keeps_pure _
  induction n generalizing scanner with
  | zero => exact keeps_pure _
  | succ n ih =>
    refine (envPgdir_observes e).keeps.bind fun pgdir => (pageLookup_observes _ _).keeps.bind fun o => ?_
    rcases o with ⟨_ | pp, _ | pte⟩
    · exact hfail scanner
    · exact hfail scanner
    · exact hfail scanner
    · exact keeps_read.bind fun _ => keeps_ite (ih _) (hfail scanner)

theorem userMemCheck_keeps (e : Nat) (va len perm : Word) :
    Keeps Kernel.envPart (userMemCheck e va len perm) := by
  refine keeps_ite ?_ (userMemScan_keeps _ _ _ _)
  exact Keeps.bind (keeps_update fun _ => rfl) fun _ => keeps_pure _

theorem sysCputs_keeps (s len : Word) : Keeps Kernel.envPart (sysCputs s len) := by
  refine keeps_read.bind fun k => (deref_observes _).keeps.bind fun e => ?_
  refine Keeps.bind ?_ fun _ => Observes.keeps ?_
  · exact (userMemCheck_keeps _ _ _ _).bind fun r => keeps_ite (envDestroy_keeps e) (keeps_pure _)
  · exact observes_ite (observes_pure _) (printString_observes _ _ _)

theorem envid2env_observes (envid : Word) (checkperm : Bool) : Observes (envid2env envid checkperm) := by
  refine observes_read.bind fun s => observes_ite (observes_pure _) (observes_ite (observes_pure _) ?_)
  exact observes_ite (observes_stop _) (observes_ite (observes_pure _) (observes_pure _))

theorem sysEnvDestroy_keeps (envid : Word) : Keeps Kernel.envPart (sysEnvDestroy envid) := by
  refine (envid2env_observes _ _).keeps.bind fun o => ?_
  refine keeps_ite (keeps_pure _) ?_
  exact (deref_observes _).keeps.bind fun e => (envDestroy_keeps e).bind fun _ => keeps_pure _

theorem sysGetenvid_observes : Observes sysGetenvid :=
  observes_read.bind fun _ => (deref_observes _).bind fun _ => observes_read.bind fun _ =>
    observes_pure _

theorem syscall_keeps (w : Outside) (no a1 a2 a3 a4 a5 : Word) :
    Keeps Kernel.envPart (syscall w no a1 a2 a3 a4 a5) := by
  refine keeps_ite ?_ (keeps_ite (keeps_pure _) (keeps_ite sysGetenvid_observes.keeps
    (keeps_ite ?_ (keeps_pure _))))
  · exact (sysCputs_keeps _ _).bind fun _ => keeps_pure _
  · exact (sysEnvDestroy_keeps _).bind fun _ => keeps_pure _

theorem storeEax_keeps (frame : Option Nat) (r : Word) : Keeps Kernel.tablePart (storeEax frame r) := by
  cases frame with
  | none => exact keeps_pure _
  | some e => exact modifyTf_keeps e fun tf => { tf with tfRegs := { tf.tfRegs with regEax := r } }

theorem destroyCurenv_keeps : Keeps v destroyCurenv :=
  keeps_read.bind fun _ => (deref_observes _).keeps.bind fun e => envDestroy_keeps e

theorem trapDispatch_keeps (w : Outside) (frame : Option Nat) (tf : Trapframe) :
    Keeps Kernel.tablePart (trapDispatch w frame tf) := by
  refine keeps_ite (tablePart_of_envPart (monitor_keeps _)) (keeps_ite ?_ (keeps_ite ?_ ?_))
  · exact keeps_ite (keeps_stop _) destroyCurenv_keeps
  · exact (tablePart_of_envPart (syscall_keeps _ _ _ _ _ _ _)).bind fun r => storeEax_keeps frame r
  · exact keeps_ite (keeps_stop _) destroyCurenv_keeps

/-- Until it returns to user mode, a trap changes saved registers only. -/
theorem trapEnter_keeps (w : Outside) (tf : Trapframe) : Keeps Kernel.tablePart (trapEnter w tf) := by
  refine keeps_ite ?_ (trapDispatch_keeps _ _ _)
  refine keeps_read.bind fun s => ?_
  cases s.curenv with
  | none => exact keeps_stop _
  | some c => exact (modifyTf_keeps c fun _ => tf).bind fun _ => trapDispatch_keeps _ _ _

/-- A trap that comes back runs the current environment, which is still running. -/
theorem trap_effect {s t : Kernel} {w : Outside} {tf : Trapframe} (h : trap w tf s = .ok () t) :
    ∃ u c, u.tablePart = s.tablePart ∧ u.curenv = some c ∧ (u.envs c).envStatus = .running ∧
      envRun c u = .ok () t := by
  rw [trap] at h
  obtain ⟨_, u, henter, h⟩ := bind_eq_ok.mp h
  rw [bind_ok (read_apply u)] at h
  cases hc : u.curenv with
  | none =>
    simp only [hc] at h
    exact absurd h stop_ne_ok
  | some c =>
    simp only [hc] at h
    obtain ⟨_, _, hcheck, h⟩ := bind_eq_ok.mp h
    obtain ⟨hrun, rfl⟩ := check_eq_ok.mp hcheck
    exact ⟨u, c, trapEnter_keeps w tf _ _ _ henter, hc, hrun, h⟩

end traps

end Jos
