import Jos.Lib.Memset
import Jos.Kern.Boot
import Jos.Kern.Load

/-! memset of a page of the kernel: the string instructions, and the words the kernel's model stores. -/
namespace Jos

open BlockMove

/-- Physical memory byte by byte, as the kernel reaches it from KERNBASE on. -/
def Kernel.kernBytes (s : Kernel) : Word → Byte := fun va => s.pageByte (pgnum (va - kernbase)) (pgoff va)

section fill

variable {s : Kernel} {p : Nat} {n va : Word}

theorem pgoff_sub_kernbase : pgoff (va - kernbase) = pgoff va := by
  have hlt := va.isLt
  rw [pgoff_eq, pgoff_eq, BitVec.toNat_sub, show kernbase.toNat = 960 * 1024 * 4096 from rfl]
  omega

/-- The bytes of a page from its start on. -/
theorem in_page_iff (hp : p < 2 ^ 20) (hn : n.toNat ≤ 4096) :
    (va - (kernbase + page2pa p)).toNat < n.toNat ↔
      pgnum (va - kernbase) = p ∧ pgoff (va - kernbase) < n.toNat := by
  have hlt := (va - kernbase).isLt
  rw [← BitVec.sub_sub, BitVec.toNat_sub, toNat_page2pa hp, pgnum_eq, pgoff_eq]
  omega

/-- On a page of the kernel, memset is the fill of the kernel's model. -/
theorem memset_page (hp : p < 2 ^ 20) (hn : n.toNat ≤ 4096) (h4 : n.toNat % 4 = 0) (c : Word)
    (r : StosCpu) (hmem : r.mem = s.kernBytes) :
    (StosCpu.memset (kernbase + page2pa p) c n r).2.mem =
      (s.fill p (n.toNat / 4) (StosCpu.spread c)).kernBytes := by
  rw [memset_mem, hmem]
  funext va
  unfold fillBlock Kernel.kernBytes
  rw [Kernel.pageByte, Kernel.pageByte, Kernel.mem_fill, ← pgoff_sub_kernbase]
  have hwords : pgoff (va - kernbase) / 4 < n.toNat / 4 ↔ pgoff (va - kernbase) < n.toNat := by omega
  by_cases hin : (va - (kernbase + page2pa p)).toNat < n.toNat
  · obtain ⟨hpage, hoff⟩ := (in_page_iff hp hn).mp hin
    rw [if_pos hin, if_pos ⟨hpage, hwords.mpr hoff⟩, getByte]
    exact (spread_byte c (Nat.mod_lt _ (by decide))).symm
  · rw [if_neg hin, if_neg fun h => hin ((in_page_iff hp hn).mpr ⟨h.1, hwords.mp h.2⟩)]

/-- memset, at any address and of any length, aligned or not, sets the bytes it should and no other, and
leaves edi behind them. The loop that is compiled without ASM has the same result and the same memory, up
to the lengths an int can hold, and on a page of the kernel so do the word stores of the kernel's model. -/
theorem memset_fills (v c n : Word) (r : StosCpu) :
    (StosCpu.memset v c n r).1 = v ∧
    (StosCpu.memset v c n r).2.mem = fillBlock n.toNat v (fun _ => c.setWidth 8) r.mem ∧
    (n ≠ 0 → (StosCpu.memset v c n r).2.edi = v + n) ∧
    (n.toNat < 2 ^ 31 → memsetBytes v c n r.mem = (v, (StosCpu.memset v c n r).2.mem)) ∧
    ∀ (s : Kernel) (p : Nat), r.mem = s.kernBytes → p < 2 ^ 20 → v = kernbase + page2pa p →
      n.toNat ≤ 4096 → n.toNat % 4 = 0 →
      (StosCpu.memset v c n r).2.mem = (s.fill p (n.toNat / 4) (StosCpu.spread c)).kernBytes := by
  refine ⟨?_, memset_mem v c n r, memset_edi v c r, fun hn => ?_, ?_⟩
  · rw [StosCpu.memset]
    split
    · rfl
    · split <;> rfl
  · exact Prod.ext rfl ((memsetBytes_eq v c n hn r.mem).trans (memset_mem v c n r).symm)
  · rintro s p hmem hp rfl hn h4
    exact memset_page hp hn h4 c r hmem

/-- check_page_free_list soils the first bytes of a free page. -/
theorem memset_fills_soil : (StosCpu.memset (kernbase + page2pa 5) 0x97 128
    ⟨0, 0, 0, true, (bss fun _ _ => 0).kernBytes⟩).2.mem =
      ((bss fun _ _ => 0).fill 5 32 0x97979797#32).kernBytes :=
  (memset_fills _ _ _ _).2.2.2.2 _ 5 rfl (by decide) rfl (by decide) (by decide)

end fill

end Jos
