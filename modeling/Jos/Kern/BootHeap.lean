import Jos.Library.Bump
import Jos.Kern.BootSpec

/-! The boot allocator over a whole sequence of requests. -/
namespace Jos

open Prog Bump

/-- The address boot_alloc hands out next: the kernel's end before the first call. -/
def Kernel.heapNext (m : Machine) (s : Kernel) : Word :=
  if s.nextfree = 0 then roundUp m.kernEnd pgsize else s.nextfree

/-- The size of a request, in whole pages. -/
def chunkBytes (n : Word) : Nat := chunkPages n * 4096

/-- The physical address behind an address of the KERNBASE window. -/
def physAddr (va : Word) : Nat := va.toNat - kernbase.toNat

/-- boot_alloc's own test: the next chunk starts in memory. -/
def StartsInRam (m : Machine) (s : Kernel) : Prop :=
  kernbase ≤ s.heapNext m ∧ physAddr (s.heapNext m) < s.npages * 4096

/-- The whole request fits: into memory, and into the KERNBASE window with an address to spare. -/
def RequestFits (m : Machine) (s : Kernel) (n : Word) : Prop :=
  physAddr (s.heapNext m) + chunkBytes n ≤ s.npages * 4096 ∧
    (s.heapNext m).toNat + chunkBytes n < 2 ^ 32

/-- A call of boot_alloc that returned: the address and the size asked for. -/
structure Grant where
  va : Word
  n : Word

/-- The bytes of a chunk, as physical addresses. -/
def Grant.chunk (g : Grant) : Chunk := ⟨physAddr g.va, g.n.toNat⟩

/-- A sequence of calls of boot_alloc, newest first, in which every request that passes the test of
the chunk's start fits as a whole. -/
inductive BootRun (m : Machine) (s₀ : Kernel) : List Grant → Kernel → Prop
  | start : BootRun m s₀ [] s₀
  | request {gs : List Grant} {s t : Kernel} {va n : Word} (hrun : BootRun m s₀ gs s)
      (hfits : StartsInRam m s → RequestFits m s n) (hcall : bootAlloc m n s = .ok va t) :
      BootRun m s₀ (⟨va, n⟩ :: gs) t

/-- What the callers of boot_alloc rely on. -/
structure HeapSound (m : Machine) (gs : List Grant) (s : Kernel) : Prop where
  aligned : ∀ g ∈ gs, pgoff g.va = 0
  inRam : ∀ g ∈ gs, kernbase ≤ g.va ∧ g.chunk.stop ≤ s.npages * 4096
  afterKernel : ∀ g ∈ gs, m.kernEnd ≤ g.va
  disjoint : (gs.map Grant.chunk).Pairwise Chunk.Apart
  /-- boot_alloc(0) reports where the next chunk starts, behind all others, and consumes nothing. -/
  zero : ∀ va t, bootAlloc m 0 s = .ok va t → va = s.heapNext m ∧ t.heapNext m = va ∧
    ∀ g ∈ gs, g.chunk.stop ≤ physAddr va
  /-- A request that does not fit panics, unless it passes the test of the chunk's start. -/
  refused : ∀ n, (StartsInRam m s → RequestFits m s n) → ¬ RequestFits m s n →
    ∀ va t, bootAlloc m n s ≠ .ok va t

variable {m : Machine} {s s₀ t : Kernel} {n va : Word} {gs : List Grant} {k : Nat}

/-- boot_alloc returns the next free address, one of the KERNBASE window, and changes only
nextfree. -/
theorem bootAlloc_frame (h : bootAlloc m n s = .ok va t) :
    va = s.heapNext m ∧ kernbase ≤ va ∧ t = { s with nextfree := t.nextfree } := by
  rw [bootAlloc, bind_ok (update_apply _ _), bind_ok (read_apply _)] at h
  obtain ⟨pa, u, hpa, h⟩ := bind_eq_ok.mp h
  rw [paddr] at hpa
  obtain ⟨_, v, hcheck, hpa⟩ := bind_eq_ok.mp hpa
  obtain ⟨hle, rfl⟩ := check_eq_ok.mp hcheck
  obtain ⟨-, rfl⟩ := pure_eq_ok.mp hpa
  obtain ⟨_, w, hcheck, h⟩ := bind_eq_ok.mp h
  obtain ⟨-, rfl⟩ := check_eq_ok.mp hcheck
  rw [bind_ok (update_apply _ _)] at h
  obtain ⟨rfl, rfl⟩ := pure_eq_ok.mp h
  unfold Kernel.heapNext
  by_cases h0 : s.nextfree = 0
  · simp only [h0, if_true] at hle ⊢
    exact ⟨trivial, hle, trivial⟩
  · simp only [h0, if_false] at hle ⊢
    exact ⟨trivial, hle, trivial⟩

theorem physAddr_heapVa (hk : k < 65536) : physAddr (heapVa k) = k * 4096 := by
  rw [physAddr, toNat_heapVa hk]
  omega

theorem le_chunkBytes (n : Word) : n.toNat ≤ chunkBytes n := by
  unfold chunkBytes chunkPages
  omega

theorem chunkPages_zero : chunkPages 0 = 0 := by
  unfold chunkPages
  decide

theorem heapNext_moved (hk : k < 65536) :
    { s with nextfree := heapVa k }.heapNext m = heapVa k := by
  change (if heapVa k = 0 then roundUp m.kernEnd pgsize else heapVa k) = heapVa k
  rw [if_neg (heapVa_ne_zero hk)]

/-- How far the boot heap has come: the calls so far were given the pages up to page `k`. -/
structure HeapAt (m : Machine) (gs : List Grant) (s : Kernel) (k : Nat) : Prop where
  base : heapBase m ≤ k
  top : k ≤ 65536
  npages : s.npages < 2 ^ 20
  next : s.heapNext m = heapVa k
  packed : Packed (heapBase m * 4096) (k * 4096) (gs.map Grant.chunk)
  grants : ∀ g ∈ gs, ∃ j, heapBase m ≤ j ∧ j < 65536 ∧ g.va = heapVa j
  inRam : ∀ g ∈ gs, g.chunk.stop ≤ s.npages * 4096

theorem heapAt_start (hfree : s₀.nextfree = 0) (hn : s₀.npages < 2 ^ 20) :
    HeapAt m [] s₀ (heapBase m) := by
  obtain ⟨htop, hround⟩ := roundUp_kernEnd m
  refine ⟨Nat.le_refl _, htop, hn, ?_, packed_nil (Nat.le_refl _), by simp, by simp⟩
  rw [Kernel.heapNext, if_pos hfree, hround]

theorem HeapAt.returns (h : HeapAt m gs s k) : bootAlloc m n s = .ok va t ↔
    (k < 65536 ∧ k < s.npages) ∧ va = heapVa k ∧
      t = { s with nextfree := heapVa (k + chunkPages n) } :=
  bootAlloc_returns h.next h.top h.npages

theorem HeapAt.startsInRam (h : HeapAt m gs s k) (hk : k < 65536) :
    StartsInRam m s ↔ k < s.npages := by
  have hge : kernbase ≤ heapVa k := by
    rw [BitVec.le_def, toNat_heapVa hk]
    omega
  rw [StartsInRam, h.next, physAddr_heapVa hk]
  constructor
  · intro hs
    omega
  · intro hlt
    exact ⟨hge, by omega⟩

/-- A request that fits moves the heap on by its pages. -/
theorem HeapAt.request (h : HeapAt m gs s k) (hfits : StartsInRam m s → RequestFits m s n)
    (hcall : bootAlloc m n s = .ok va t) : HeapAt m (⟨va, n⟩ :: gs) t (k + chunkPages n) := by
  obtain ⟨⟨hk, hlt⟩, rfl, rfl⟩ := h.returns.mp hcall
  obtain ⟨hram, hwindow⟩ := hfits ((h.startsInRam hk).mpr hlt)
  have hbase : kernbase.toNat = 4026531840 := rfl
  rw [h.next, physAddr_heapVa hk, chunkBytes] at hram
  rw [h.next, toNat_heapVa hk, hbase, chunkBytes] at hwindow
  have hnew : k + chunkPages n < 65536 := by omega
  have hin : (k + chunkPages n) * 4096 ≤ s.npages * 4096 := by
    rw [Nat.add_mul]
    exact hram
  have hsize : n.toNat ≤ chunkPages n * 4096 := le_chunkBytes n
  have hstart : (Grant.mk (heapVa k) n).chunk.start = k * 4096 := physAddr_heapVa hk
  have hstop : (Grant.mk (heapVa k) n).chunk.stop ≤ (k + chunkPages n) * 4096 := by
    rw [Chunk.stop, hstart, Nat.add_mul]
    exact Nat.add_le_add_left hsize _
  refine ⟨h.base.trans (Nat.le_add_right _ _), by omega, h.npages, ?next, ?packed, ?grants, ?inRam⟩
  case next => exact heapNext_moved hnew
  case packed =>
    exact h.packed.cons hstart hstop
  case grants =>
    intro g hg
    rcases List.mem_cons.mp hg with rfl | hg
    · exact ⟨k, h.base, hk, rfl⟩
    · exact h.grants g hg
  case inRam =>
    intro g hg
    rcases List.mem_cons.mp hg with rfl | hg
    · exact hstop.trans hin
    · exact h.inRam g hg

theorem bootRun_heapAt (hfree : s₀.nextfree = 0) (hn : s₀.npages < 2 ^ 20)
    (h : BootRun m s₀ gs s) : ∃ k, HeapAt m gs s k := by
  induction h with
  | start => exact ⟨heapBase m, heapAt_start hfree hn⟩
  | request hrun hfits hcall ih =>
    obtain ⟨k, hk⟩ := ih
    exact ⟨_, hk.request hfits hcall⟩

theorem kernEnd_le_heapVa (hbase : heapBase m ≤ k) (hk : k < 65536) : m.kernEnd ≤ heapVa k := by
  have hb : kernbase.toNat = 4026531840 := rfl
  have hgt := m.kernEnd_gt
  rw [BitVec.lt_def, show (kernbase + extphysmem).toNat = 4027580416 from rfl] at hgt
  rw [BitVec.le_def, toNat_heapVa hk, hb]
  unfold heapBase at hbase
  omega

theorem pgoff_heapVa (hk : k < 65536) : pgoff (heapVa k) = 0 := by
  rw [pgoff_eq, toNat_heapVa hk, show kernbase.toNat = 4026531840 from rfl]
  omega

theorem HeapAt.sound (h : HeapAt m gs s k) : HeapSound m gs s := by
  have hbelow : ∀ g ∈ gs, g.chunk.stop ≤ k * 4096 := fun g hg =>
    h.packed.below g.chunk (List.mem_map_of_mem hg)
  refine ⟨?aligned, ?inRam, ?afterKernel, h.packed.apart, ?zero, ?refused⟩
  case aligned =>
    intro g hg
    obtain ⟨j, -, hj, hva⟩ := h.grants g hg
    rw [hva]
    exact pgoff_heapVa hj
  case inRam =>
    intro g hg
    obtain ⟨j, -, hj, hva⟩ := h.grants g hg
    refine ⟨?_, h.inRam g hg⟩
    rw [hva, BitVec.le_def, toNat_heapVa hj]
    omega
  case afterKernel =>
    intro g hg
    obtain ⟨j, hbase, hj, hva⟩ := h.grants g hg
    rw [hva]
    exact kernEnd_le_heapVa hbase hj
  case zero =>
    intro va t hcall
    obtain ⟨⟨hk, -⟩, rfl, rfl⟩ := h.returns.mp hcall
    refine ⟨h.next.symm, ?_, fun g hg => ?_⟩
    · rw [chunkPages_zero]
      exact heapNext_moved hk
    · rw [physAddr_heapVa hk]
      exact hbelow g hg
  case refused =>
    intro n hfits hnot va t hcall
    obtain ⟨⟨hk, hlt⟩, -, -⟩ := h.returns.mp hcall
    exact hnot (hfits ((h.startsInRam hk).mpr hlt))

/-- As long as every request that passes the test of its start fits as a whole, boot_alloc hands
out memory there is, and each byte of it once. -/
theorem bootRun_sound (hfree : s₀.nextfree = 0) (hn : s₀.npages < 2 ^ 20) (h : BootRun m s₀ gs s) :
    HeapSound m gs s := by
  obtain ⟨k, hk⟩ := bootRun_heapAt hfree hn h
  exact hk.sound

/-- The kernel before its first boot_alloc, with 5 MB of memory. -/
def smallBoot : Kernel := { bss fun _ _ => 0 with npages := 1280 }

theorem smallBoot_heapAt : HeapAt smallMachine [] smallBoot 279 := by
  rw [← heapBase_smallMachine]
  exact heapAt_start rfl (show 1280 < 2 ^ 20 by omega)

/-- The first boot_alloc returns, whatever the size asked for. -/
theorem smallBoot_returns (n : Word) : bootAlloc smallMachine n smallBoot =
    .ok (heapVa 279) { smallBoot with nextfree := heapVa (279 + chunkPages n) } :=
  smallBoot_heapAt.returns.mpr ⟨⟨by omega, show 279 < 1280 by omega⟩, rfl, rfl⟩

theorem bootRun_sound_smallMachine :
    ∃ t, BootRun smallMachine smallBoot [⟨heapVa 279, 0x2000#32⟩] t ∧
      HeapSound smallMachine [⟨heapVa 279, 0x2000#32⟩] t := by
  have hrun : BootRun smallMachine smallBoot [⟨heapVa 279, 0x2000#32⟩]
      { smallBoot with nextfree := heapVa (279 + chunkPages 0x2000#32) } := by
    refine BootRun.start.request (fun _ => ?_) (smallBoot_returns _)
    rw [RequestFits, smallBoot_heapAt.next, chunkBytes, chunkPages]
    decide
  exact ⟨_, hrun, bootRun_sound rfl (show 1280 < 2 ^ 20 by omega) hrun⟩

/-- A request for 16 MB is granted on a machine with 5 MB. -/
theorem not_bootAlloc_inRam : ∃ t, bootAlloc smallMachine 0x1000000#32 smallBoot = .ok (heapVa 279) t ∧
    ¬ (Grant.mk (heapVa 279) 0x1000000#32).chunk.stop ≤ t.npages * 4096 := by
  refine ⟨_, smallBoot_returns _, ?_⟩
  rw [Chunk.stop, Grant.chunk, physAddr_heapVa (by omega)]
  decide

end Jos
