import Jos.Kern.Boot
import Jos.Kern.Hardware
import Jos.Kern.PmapSpec

/-! The page directory seen through itself, at UVPT (inc/memlayout.h, lib/entry.S). -/
namespace Jos

open Prog

/-- uvpd, as lib/entry.S computes it. -/
def uvpd : Word := uvpt + (uvpt >>> 12) * 4#32

/-- The address of `uvpt[PGNUM(va)]`. -/
def uvptOf (va : Word) : Word := uvpt + BitVec.ofNat 32 (4 * pgnum va)

/-- The address of `uvpd[PDX(va)]`. -/
def uvpdOf (va : Word) : Word := uvpd + BitVec.ofNat 32 (4 * pdx va)

section addresses

variable (va : Word)

theorem toNat_uvptOf : (uvptOf va).toNat = 957 * 2 ^ 22 + 4 * pgnum va := by
  have h := pgnum_lt va
  have hu : uvpt.toNat = 957 * 2 ^ 22 := by decide
  rw [uvptOf, BitVec.toNat_add, hu, BitVec.toNat_ofNat]
  omega

theorem pdx_uvptOf : pdx (uvptOf va) = 957 := by
  have h := pgnum_lt va
  rw [pdx_eq, toNat_uvptOf]
  omega

theorem ptx_uvptOf : ptx (uvptOf va) = pdx va := by
  have h := pgnum_lt va
  have h2 := pgnum_eq_indices va
  have h3 := ptx_lt va
  rw [ptx_eq, toNat_uvptOf]
  omega

theorem pgoff_uvptOf : pgoff (uvptOf va) = 4 * ptx va := by
  have h2 := pgnum_eq_indices va
  have h3 := ptx_lt va
  rw [pgoff_eq, toNat_uvptOf]
  omega

theorem toNat_uvpdOf : (uvpdOf va).toNat = 957 * 2 ^ 22 + 957 * 4096 + 4 * pdx va := by
  have h := pdx_lt va
  have hu : uvpd.toNat = 957 * 2 ^ 22 + 957 * 4096 := by decide
  rw [uvpdOf, BitVec.toNat_add, hu, BitVec.toNat_ofNat]
  omega

theorem pdx_uvpdOf : pdx (uvpdOf va) = 957 := by
  have h := pdx_lt va
  rw [pdx_eq, toNat_uvpdOf]
  omega

theorem ptx_uvpdOf : ptx (uvpdOf va) = 957 := by
  have h := pdx_lt va
  rw [ptx_eq, toNat_uvpdOf]
  omega

theorem pgoff_uvpdOf : pgoff (uvpdOf va) = 4 * pdx va := by
  have h := pdx_lt va
  rw [pgoff_eq, toNat_uvpdOf]
  omega

end addresses

section selfEntry

variable {P : Nat}

theorem selfEntry_eq (P : Nat) : selfEntry P = page2pa P ||| (pteU ||| pteP) := by
  rw [selfEntry, BitVec.or_assoc]

theorem pgnum_selfEntry (hP : P < 2 ^ 20) : pgnum (selfEntry P) = P := by
  rw [selfEntry_eq]
  exact pgnum_entry hP (by decide)

theorem has_selfEntry_P : Has (selfEntry P) pteP := by
  rw [selfEntry_eq, has_entry (by decide)]
  decide

theorem has_selfEntry_U : Has (selfEntry P) pteU := by
  rw [selfEntry_eq, has_entry (by decide)]
  decide

theorem not_has_selfEntry_W : ¬ Has (selfEntry P) pteW := by
  rw [selfEntry_eq, has_entry (by decide)]
  decide

/-- Inside the window, the directory entry that is looked up is the self entry, and the
directory plays the page table. -/
theorem hwWalk_window {mem : Nat → Nat → Word} {w : Word} (hlt : P < 2 ^ 20)
    (hself : mem P 957 = selfEntry P) (hw : pdx w = 957) : hwWalk mem P w =
      if Has (mem P (ptx w)) pteP then
        some ⟨pgnum (mem P (ptx w)), Has (mem P (ptx w)) pteU, false⟩
      else none := by
  have hP : Has (mem P (pdx w)) pteP := by
    rw [hw, hself]
    exact has_selfEntry_P
  have htable : pgnum (mem P (pdx w)) = P := by
    rw [hw, hself, pgnum_selfEntry hlt]
  have hU : Has (mem P (pdx w)) pteU := by
    rw [hw, hself]
    exact has_selfEntry_U
  have hW : ¬ Has (mem P (pdx w)) pteW := by
    rw [hw, hself]
    exact not_has_selfEntry_W
  split
  · rename_i ht
    rw [hwWalk_mapped hP (by rwa [htable]), htable]
    simp [hU, hW]
  · rename_i ht
    rw [hwWalk_unmapped (by rwa [htable])]

end selfEntry

/-- A directory as mem_init and env_setup_vm leave it at UVPT, whose other present entries name
installed pages. -/
structure SelfMapped (s : Kernel) (P : Nat) : Prop where
  installed : P < s.npages
  addressable : s.npages ≤ 2 ^ 20
  self : s.mem P (pdx uvpt) = selfEntry P
  others : ∀ i < 1024, i ≠ pdx uvpt → Has (s.mem P i) pteP → pgnum (s.mem P i) < s.npages

namespace SelfMapped

variable {s : Kernel} {P : Nat} {va : Word}

theorem lt (h : SelfMapped s P) : P < 2 ^ 20 := by
  have h1 := h.installed
  have h2 := h.addressable
  omega

theorem self_at (h : SelfMapped s P) : s.mem P 957 = selfEntry P := h.self

/-- Every table a present entry names is installed: the directory itself is one of them. -/
theorem table_lt (h : SelfMapped s P) (hP : Has (s.mem P (pdx va)) pteP) :
    pgnum (s.mem P (pdx va)) < s.npages := by
  by_cases he : pdx va = pdx uvpt
  · rw [he, h.self, pgnum_selfEntry h.lt]
    exact h.installed
  · exact h.others (pdx va) (pdx_lt va) he hP

theorem hwWalk_uvptOf (h : SelfMapped s P) (va : Word) :
    hwWalk s.mem P (uvptOf va) =
      if Has (s.mem P (pdx va)) pteP then
        some ⟨pgnum (s.mem P (pdx va)), Has (s.mem P (pdx va)) pteU, false⟩
      else none := by
  have hw := hwWalk_window h.lt h.self_at (pdx_uvptOf va)
  rwa [ptx_uvptOf] at hw

theorem hwAddr_uvpdOf (h : SelfMapped s P) (va : Word) :
    hwAddr s.mem P (uvpdOf va) = some (PteRef.addr ⟨P, pdx va⟩) := by
  have hw := hwWalk_window h.lt h.self_at (pdx_uvpdOf va)
  rw [ptx_uvpdOf, h.self_at, if_pos has_selfEntry_P, pgnum_selfEntry h.lt] at hw
  rw [hwAddr, hw, Option.map_some, pgoff_uvpdOf]
  rfl

/-- pgdir_walk without `create` finds the entry exactly when the directory entry is present. -/
theorem pgdirWalk_eq (h : SelfMapped s P) (va : Word) :
    pgdirWalk P va false s =
      .ok (if Has (s.mem P (pdx va)) pteP then some ⟨pgnum (s.mem P (pdx va)), ptx va⟩ else none)
        s := by
  split
  · rename_i hP
    exact pgdirWalk_present (target_eq_some.mpr ⟨hP, rfl⟩) (h.table_lt hP)
  · rename_i hP
    exact pgdirWalk_absent (target_eq_none.mpr hP)

end SelfMapped

/-- The window at UVPT shows the page tables: each entry at the address pgdir_walk finds it at,
the directory itself at uvpd, to be read by the user where the directory entry allows it, and
never to be written. -/
theorem uvpt_window {s : Kernel} {P : Nat} (h : SelfMapped s P) (va : Word) :
    ((hwAddr s.mem P (uvptOf va)).isSome ↔ Has (s.mem P (pdx va)) pteP) ∧
    (∃ r : Option PteRef, pgdirWalk P va false s = .ok r s ∧
      hwAddr s.mem P (uvptOf va) = r.map PteRef.addr) ∧
    hwAddr s.mem P (uvpdOf va) = some (PteRef.addr ⟨P, pdx va⟩) ∧
    (UserCanRead s.mem P (uvptOf va) ↔
      Has (s.mem P (pdx va)) pteP ∧ Has (s.mem P (pdx va)) pteU) ∧
    ∀ w, pdx w = pdx uvpt → ¬ UserCanWrite s.mem P w := by
  have hwalk := h.hwWalk_uvptOf va
  have haddr : hwAddr s.mem P (uvptOf va) = if Has (s.mem P (pdx va)) pteP then
      some (PteRef.addr ⟨pgnum (s.mem P (pdx va)), ptx va⟩) else none := by
    rw [hwAddr, hwalk]
    split
    · rw [Option.map_some, pgoff_uvptOf]
      rfl
    · rfl
  refine ⟨?_, ⟨_, h.pgdirWalk_eq va, ?_⟩, h.hwAddr_uvpdOf va, ?_, ?_⟩
  · rw [haddr]
    split <;> simp_all
  · rw [haddr]
    split <;> rfl
  · unfold UserCanRead
    rw [hwalk]
    split <;> simp_all
  · intro w hw
    apply not_userCanWrite
    rw [Kernel.pde, hw, h.self]
    exact not_has_selfEntry_W

/-- A kernel with one directory, in page 1, whose first entry names a table of the user's in page 2. -/
def userTable : Kernel :=
  let s := { bss fun _ _ => 0#32 with npages := 3 }
  (s.store 1 (pdx uvpt) (selfEntry 1)).store 1 0 (page2pa 2 ||| pteP ||| pteU ||| pteW)

theorem selfMapped_userTable : SelfMapped userTable 1 where
  installed := by decide
  addressable := by decide
  self := by decide
  others := by
    intro i _ hi hP
    have he : userTable.mem 1 i = if i = 0 then page2pa 2 ||| pteP ||| pteU ||| pteW else 0#32 := by
      simp [userTable, Kernel.mem_store, hi, bss]
    rw [he] at hP ⊢
    split at hP
    · rename_i h0
      rw [if_pos h0]
      decide
    · exact absurd hP not_has_zero

/-- The user reads that table in the window. -/
theorem uvpt_window_userTable :
    hwAddr userTable.mem 1 (uvptOf 0) = some (PteRef.addr ⟨2, 0⟩) ∧
    hwAddr userTable.mem 1 (uvpdOf 0) = some (PteRef.addr ⟨1, 0⟩) ∧
    UserCanRead userTable.mem 1 (uvptOf 0) ∧
    ∀ w, pdx w = pdx uvpt → ¬ UserCanWrite userTable.mem 1 w := by
  obtain ⟨-, ⟨r, hwalk, haddr⟩, hdir, hread, hwrite⟩ := uvpt_window selfMapped_userTable 0
  have hfound : pgdirWalk 1 0 false userTable = .ok (some ⟨2, 0⟩) userTable :=
    pgdirWalk_present (target_eq_some.mpr (by decide)) (by decide)
  rw [hfound] at hwalk
  cases hwalk
  exact ⟨haddr, hdir, hread.mpr (by decide), hwrite⟩

/-- A kernel with one directory, in page 1, whose first entry is 4: not present, yet PTE_U. -/
def userNotPresent : Kernel :=
  let s := { bss fun _ _ => 0#32 with npages := 2 }
  (s.store 1 (pdx uvpt) (selfEntry 1)).store 1 0 pteU

theorem selfMapped_userNotPresent : SelfMapped userNotPresent 1 where
  installed := by decide
  addressable := by decide
  self := by decide
  others := by
    intro i _ hi hP
    have he : userNotPresent.mem 1 i = if i = 0 then pteU else 0#32 := by
      simp [userNotPresent, Kernel.mem_store, hi, bss]
    rw [he] at hP ⊢
    split at hP
    · exact absurd hP (by decide)
    · exact absurd hP not_has_zero

/-- A directory entry that has PTE_U without PTE_P leaves the window unreadable there. -/
theorem not_readable_exactly_user :
    ¬ ∀ (s : Kernel) (P : Nat), SelfMapped s P → ∀ va : Word,
      (UserCanRead s.mem P (uvptOf va) ↔ Has (s.mem P (pdx va)) pteU) := by
  intro h
  have hread := (h userNotPresent 1 selfMapped_userNotPresent 0).mpr (by decide)
  obtain ⟨x, hx, -⟩ := hread
  have hnone : hwWalk userNotPresent.mem 1 (uvptOf 0) = none := by decide
  rw [hnone] at hx
  cases hx

end Jos
