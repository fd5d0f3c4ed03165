import Jos.Kern.EnvSpace

/-! load_icode: the stores through the new address space, and the image they leave in it. -/
namespace Jos

open Prog

namespace Kernel

/-- Byte `off` of physical page `p`. -/
def pageByte (s : Kernel) (p off : Nat) : Byte := getByte (s.mem p (off / 4)) (off % 4)

/-- The byte at `va` under directory `d`. -/
def byteAt (s : Kernel) (d : Nat) (va : Word) : Option Byte :=
  (hwWalk s.mem d va).map fun x => s.pageByte x.page (pgoff va)

/-- Store byte `off` of physical page `p`. -/
def poke (s : Kernel) (p off : Nat) (b : Byte) : Kernel :=
  s.store p (off / 4) (setByte (s.mem p (off / 4)) (off % 4) b)

end Kernel

section bytes

variable {s t : Kernel} {w va : Word} {b : Byte} {j k p q off : Nat}

theorem getByte_setByte (hj : j < 4) (hk : k < 4) :
    getByte (setByte w k b) j = if j = k then b else getByte w j := by
  have hmask : ∀ n, (0xFF#32).getLsbD n = decide (n < 8) := by
    intro n
    rw [BitVec.getLsbD]
    exact Nat.testBit_two_pow_sub_one 8 n
  have hget : ∀ (w : Word) (i : Nat), i < 8 → (getByte w j).getLsbD i = w.getLsbD (8 * j + i) := by
    intro w i hi
    simp [getByte, hi]
  apply BitVec.eq_of_getLsbD_eq
  intro i hi
  rw [hget _ i hi, setByte, BitVec.getLsbD_or, BitVec.getLsbD_and, BitVec.getLsbD_not,
    BitVec.getLsbD_shiftLeft, BitVec.getLsbD_shiftLeft, hmask, BitVec.getLsbD_setWidth]
  by_cases he : j = k
  · subst he
    simp [hi, show 8 * j + i < 32 by omega, show ¬ (8 * j + i < 8 * j) by omega]
    intro h
    omega
  · rw [if_neg he, hget _ i hi]
    rcases Nat.lt_or_gt_of_ne he with hlt | hgt
    · simp [show 8 * j + i < 8 * k by omega, show 8 * j + i < 32 by omega]
    · have hb : b.getLsbD (8 * j + i - 8 * k) = false := BitVec.getLsbD_of_ge b _ (by omega)
      simp [show ¬ (8 * j + i < 8 * k) by omega, show 8 * j + i < 32 by omega,
        show ¬ (8 * j + i - 8 * k < 8) by omega, hb]

theorem pageByte_poke {o : Nat} : (s.poke p off b).pageByte q o =
    if q = p ∧ o = off then b else s.pageByte q o := by
  unfold Kernel.poke Kernel.pageByte
  rw [Kernel.mem_store]
  by_cases h : q = p ∧ o / 4 = off / 4
  · obtain ⟨rfl, ho⟩ := h
    rw [if_pos ⟨rfl, ho⟩, getByte_setByte (Nat.mod_lt _ (by decide)) (Nat.mod_lt _ (by decide)), ho]
    have hiff : o % 4 = off % 4 ↔ q = q ∧ o = off := by omega
    simp only [hiff]
  · rw [if_neg h, if_neg]
    rintro ⟨rfl, rfl⟩
    exact h ⟨rfl, rfl⟩

theorem va_eq_iff {va va' : Word} : va = va' ↔ pgnum va = pgnum va' ∧ pgoff va = pgoff va' := by
  constructor
  · rintro rfl
    exact ⟨rfl, rfl⟩
  · rintro ⟨h1, h2⟩
    rw [pgnum_eq, pgnum_eq] at h1
    rw [pgoff_eq, pgoff_eq] at h2
    apply BitVec.eq_of_toNat_eq
    omega

/-- A store that does not fault. -/
theorem storeByte_eq_ok (h : storeByte va b s = .ok () t) : ∃ x, hwWalk s.mem s.cr3 va = some x ∧
    x.write = true ∧ t = s.poke x.page (pgoff va) b := by
  rw [storeByte, bind_ok (read_apply s)] at h
  cases hw : hwWalk s.mem s.cr3 va with
  | none =>
    simp only [hw] at h
    exact absurd h stop_ne_ok
  | some x =>
    simp only [hw] at h
    obtain ⟨_, u, hcheck, h⟩ := bind_eq_ok.mp h
    obtain ⟨hwrite, rfl⟩ := check_eq_ok.mp hcheck
    obtain rfl := update_eq_ok.mp h
    exact ⟨x, rfl, hwrite, rfl⟩

theorem storeByte_ok {x : Translation} (hx : hwWalk s.mem s.cr3 va = some x) (hw : x.write = true) :
    storeByte va b s = .ok () (s.poke x.page (pgoff va) b) := by
  rw [storeByte, bind_ok (read_apply s)]
  simp only [hx]
  rw [bind_ok (check_true hw s)]
  rfl

end bytes

/-- Every page directory `d` maps below UTOP is mapped there only. -/
def Sole (s : Kernel) (d : Nat) : Prop :=
  ∀ v < 955 * 1024, ∀ p, target (s.entry d v) = some p → (s.pages p).ppRef = 1

theorem Sole.of_empty {s : Kernel} {d : Nat} (h : ∀ v < 955 * 1024, s.entry d v = 0#32) : Sole s d := by
  intro v hv p hp
  rw [h v hv, target_zero] at hp
  cases hp

/-- `t` is `s` with the bytes `W` stored through directory `d`. -/
structure Written (s t : Kernel) (L : Ledger) (d : Nat) (W : Word → Option Byte) : Prop where
  rest : t = { s with mem := t.mem, log := t.log }
  pde : ∀ d' ∈ L.dirs, ∀ i, t.pde d' i = s.pde d' i
  pte : ∀ d' ∈ L.dirs, ∀ i ∈ L.own d', ∀ j, t.pte d' i j = s.pte d' i j
  bytes : ∀ va, pdx va < 955 → t.byteAt d va = (W va).or (s.byteAt d va)
  mem : ∀ q, (∀ v < 955 * 1024, target (s.entry d v) ≠ some q) → t.mem q = s.mem q

/-- The state while a binary is loaded into the address space of `d`, which shares no page. -/
structure Loading (m : Machine) (s t : Kernel) (L : Ledger) (fl efl : List Nat) (d : Nat) : Prop where
  system : System m t L fl efl
  paging : Kernel.Paging s t
  remaps : Remaps s t L d (· < 955 * 1024)
  sole : Sole t d

/-- The bytes `c 0, ..., c (n - 1)` at `dst` and on. -/
def window (dst : Word) (n : Nat) (c : Nat → Byte) (va : Word) : Option Byte :=
  if (va - dst).toNat < n then some (c (va - dst).toNat) else none

section window

variable {dst va : Word} {c : Nat → Byte} {k n : Nat}

theorem toNat_sub_eq_iff (hk : (dst + BitVec.ofNat 32 k).toNat = dst.toNat + k) :
    (va - dst).toNat = k ↔ va = dst + BitVec.ofNat 32 k := by
  constructor
  · intro h
    apply BitVec.eq_of_toNat_eq
    rw [hk, ← h, BitVec.toNat_sub]
    have := dst.isLt
    have := va.isLt
    have := (dst + BitVec.ofNat 32 k).isLt
    rw [BitVec.toNat_sub] at h
    omega
  · rintro rfl
    rw [BitVec.toNat_sub, hk]
    have := dst.isLt
    have := (dst + BitVec.ofNat 32 k).isLt
    omega

/-- One byte more at the upper end. -/
theorem window_succ_top (hk : (dst + BitVec.ofNat 32 k).toNat = dst.toNat + k) :
    window dst (k + 1) c va =
      (if va = dst + BitVec.ofNat 32 k then some (c k) else none).or (window dst k c va) := by
  have hiff : (va - dst).toNat = k ↔ va = _ := toNat_sub_eq_iff hk
  unfold window
  by_cases he : (va - dst).toNat = k
  · rw [if_pos (hiff.mp he), if_pos (by omega), he]
    rfl
  · rw [if_neg fun h => he (hiff.mpr h), Option.none_or]
    by_cases hlt : (va - dst).toNat < k
    · rw [if_pos hlt, if_pos (by omega)]
    · rw [if_neg hlt, if_neg (by omega)]

/-- The bytes of a window from `lo` on. -/
def upperWindow (dst : Word) (n : Nat) (c : Nat → Byte) (lo : Nat) (va : Word) : Option Byte :=
  if lo ≤ (va - dst).toNat then window dst n c va else none

/-- One byte more at the lower end. -/
theorem window_succ_bottom (hk : (dst + BitVec.ofNat 32 k).toNat = dst.toNat + k) (hn : k < n) :
    upperWindow dst n c k va =
      (if va = dst + BitVec.ofNat 32 k then some (c k) else none).or (upperWindow dst n c (k + 1) va) := by
  have hiff : (va - dst).toNat = k ↔ va = _ := toNat_sub_eq_iff hk
  unfold upperWindow
  by_cases he : (va - dst).toNat = k
  · rw [if_pos (hiff.mp he), if_pos (by omega), window, if_pos (by omega), he]
    rfl
  · rw [if_neg fun h => he (hiff.mpr h), Option.none_or]
    by_cases hlt : k < (va - dst).toNat
    · rw [if_pos (by omega), if_pos (by omega)]
    · rw [if_neg (by omega), if_neg (by omega)]

end window

section stores

variable {m : Machine} {s t u : Kernel} {L : Ledger} {fl efl : List Nat} {d d' p n : Nat}
  {W W' : Word → Option Byte} {va dst : Word} {b : Byte}

namespace Written

theorem refl (s : Kernel) (L : Ledger) (d : Nat) : Written s s L d fun _ => none where
  rest := rfl
  pde := fun _ _ _ => rfl
  pte := fun _ _ _ _ _ => rfl
  bytes := fun _ _ => rfl
  mem := fun _ _ => rfl

theorem congr (h : Written s t L d W) (hw : ∀ va, pdx va < 955 → W' va = W va) :
    Written s t L d W' where
  rest := h.rest
  pde := h.pde
  pte := h.pte
  bytes := fun va hva => by rw [h.bytes va hva, hw va hva]
  mem := h.mem

theorem entry (h : Written s t L d W) (hd' : d' ∈ L.dirs) (hown : ∀ i < 955, i ∈ L.own d') {v : Nat}
    (hv : v < 955 * 1024) : t.entry d' v = s.entry d' v :=
  h.pte d' hd' _ (hown _ (by omega)) _

/-- No translation changes. -/
theorem walk (h : Written s t L d W) (hd' : d' ∈ L.dirs) (hown : pdx va ∈ L.own d') :
    hwWalk t.mem d' va = hwWalk s.mem d' va :=
  hwWalk_of_entries (h.pde d' hd' _) (h.pte d' hd' _ hown _)

theorem trans (h : Written s t L d W) (h' : Written t u L d W') (hd : d ∈ L.dirs)
    (hown : ∀ i < 955, i ∈ L.own d) : Written s u L d fun va => (W' va).or (W va) where
  rest := by rw [h'.rest, h.rest]
  pde := fun d' hd' i => (h'.pde d' hd' i).trans (h.pde d' hd' i)
  pte := fun d' hd' i hi j => (h'.pte d' hd' i hi j).trans (h.pte d' hd' i hi j)
  bytes := by
    intro va hva
    rw [h'.bytes va hva, h.bytes va hva, Option.or_assoc]
  mem := by
    intro q hq
    have hq' : ∀ v < 955 * 1024, target (t.entry d v) ≠ some q := by
      intro v hv
      rw [h.entry hd hown hv]
      exact hq v hv
    rw [h'.mem q hq', h.mem q hq]

end Written

namespace Loading

/-- The page behind a mapped address below UTOP: data, and mapped nowhere else. -/
theorem page (h : Loading m s t L fl efl d) (hd : d ∈ L.dirs) (hva : pdx va < 955)
    (hp : target (t.pte d (pdx va) (ptx va)) = some p) : IsData t L p ∧
      ∀ d' ∈ L.dirs, ∀ i < 955, ∀ j < 1024, target (t.pte d' i j) = some p →
        d' = d ∧ i = pdx va ∧ j = ptx va := by
  have h1 := h.sole (pgnum va) (System.pgnum_lt_utop hva) p (by rw [System.entry_pgnum]; exact hp)
  obtain ⟨hdata, -, huniq⟩ := h.system.balanced.sole hd hva (ptx_lt va) hp h1
  exact ⟨hdata, huniq⟩

/-- A store below UTOP that does not fault. -/
theorem store (h : Loading m s t L fl efl d) (hd : d ∈ L.dirs) (hcr : t.cr3 = d) (hva : pdx va < 955)
    (hrun : storeByte va b t = .ok () u) :
    Loading m s u L fl efl d ∧ Written t u L d fun x => if x = va then some b else none := by
  obtain ⟨x, hx, -, rfl⟩ := storeByte_eq_ok hrun
  rw [hcr] at hx
  have hp := (hwWalk_eq_some.mp hx).1
  obtain ⟨hdata, huniq⟩ := h.page hd hva hp
  have hpde : ∀ d' ∈ L.dirs, ∀ i, (t.poke x.page (pgoff va) b).pde d' i = t.pde d' i :=
    fun d' hd' i => pde_storeData hdata hd'
  have hpte : ∀ d' ∈ L.dirs, ∀ i ∈ L.own d', ∀ j,
      (t.poke x.page (pgoff va) b).pte d' i j = t.pte d' i j :=
    fun d' hd' i hi j => pte_storeData hdata hd' hi
  have hown := h.system.balanced.own_user
  refine ⟨⟨h.system.storeData hdata _ _, h.paging.trans Kernel.Paging.store,
    h.remaps.trans ?_ hown, ?_⟩, ⟨rfl, hpde, hpte, ?_, ?_⟩⟩
  · refine ⟨fun d' hd' i _ => hpde d' hd' i, fun i _ => Or.inl (hpde d hd i),
      fun d' hd' i hi j _ _ => hpte d' hd' i hi j, ?_⟩
    intro d' hd' i hi j hj hn q hq hdataq
    refine ⟨?_, isData_congr (fun d' hd' i _ => hpde d' hd' i) hdataq⟩
    funext k
    apply Kernel.mem_store_of_ne
    rintro rfl
    exact hn (huniq d' hd' i hi j hj hq).1 (by omega)
  · intro v hv q hq
    rw [Kernel.entry, hpte d hd _ (hown d hd _ (by omega))] at hq
    exact h.sole v hv q hq
  · intro va' hva'
    have hwalk : hwWalk (t.poke x.page (pgoff va) b).mem d va' = hwWalk t.mem d va' :=
      hwWalk_of_entries (hpde d hd _) (hpte d hd _ (hown d hd _ hva') _)
    unfold Kernel.byteAt
    rw [hwalk]
    by_cases he : va' = va
    · subst he
      rw [if_pos rfl, hx, Option.map_some, pageByte_poke, if_pos ⟨rfl, rfl⟩]
      rfl
    · rw [if_neg he, Option.none_or]
      cases hx' : hwWalk t.mem d va' with
      | none => rfl
      | some x' =>
        -- another address reaches another page, or another byte of the page
        rw [Option.map_some, Option.map_some, pageByte_poke, if_neg]
        rintro ⟨hpage, hoff⟩
        have hp' := (hwWalk_eq_some.mp hx').1
        rw [hpage] at hp'
        obtain ⟨-, hi, hj⟩ := huniq d hd _ hva' _ (ptx_lt va') hp'
        exact he (va_eq_iff.mpr ⟨by rw [pgnum_eq_indices, hi, hj, ← pgnum_eq_indices], hoff⟩)
  · intro q hq
    funext k
    apply Kernel.mem_store_of_ne
    rintro rfl
    exact hq (pgnum va) (System.pgnum_lt_utop hva) (by rw [System.entry_pgnum]; exact hp)

/-- The first page above UTOP is mapped read-only: no store gets past it. -/
theorem guard (h : System m t L fl efl) (hd : d ∈ L.dirs) (hcr : t.cr3 = d) :
    storeByte utop b t ≠ .ok () u := by
  intro hrun
  obtain ⟨x, hx, hw, -⟩ := storeByte_eq_ok hrun
  rw [hcr] at hx
  obtain ⟨-, -, hxw⟩ := hwWalk_eq_some.mp hx
  rw [hw] at hxw
  have hW := (of_decide_eq_true hxw.symm).2
  have hi : pdx utop ∈ kernOwn := mem_kernOwn.mpr (by decide)
  rw [h.pte_upper hd hi (by decide) (ptx_lt utop),
    show pdx utop * 1024 + ptx utop = 955 * 1024 + 0 by decide,
    kernelMap_envs (m := m) (k := 0) (by rw [envsPages_eq]; decide), has_pageEntry (by decide)] at hW
  exact absurd hW (by decide)

/-- A loop of stores that goes up: it returns only when it ends below UTOP. -/
theorem storeUp (h : Loading m s t L fl efl d) (hd : d ∈ L.dirs) (hcr : s.cr3 = d)
    (hdst : dst.toNat ≤ utop.toNat) (c : Nat → Byte) (n : Nat) :
    Ensures (forRange (fun k => storeByte (dst + BitVec.ofNat 32 k) (c k)) n) t fun _ u =>
      dst.toNat + n ≤ utop.toNat ∧ Loading m s u L fl efl d ∧ Written t u L d (window dst n c) := by
  rw [toNat_utop] at hdst ⊢
  refine forRange_ensures (I := fun n u => dst.toNat + n ≤ 955 * 2 ^ 22 ∧ Loading m s u L fl efl d ∧
    Written t u L d (window dst n c)) ⟨by omega, h, ?_⟩ ?_
  · exact (Written.refl t L d).congr fun va _ => if_neg (Nat.not_lt_zero _)
  · rintro k hk u ⟨hle, hu, hw⟩ ⟨⟩ v hv
    have hcu : u.cr3 = d := by rw [hu.paging, ← hcr]
    have hva : (dst + BitVec.ofNat 32 k).toNat = dst.toNat + k := by
      rw [BitVec.toNat_add, BitVec.toNat_ofNat]
      omega
    have hne : dst.toNat + k ≠ 955 * 2 ^ 22 := by
      intro he
      have hutop : dst + BitVec.ofNat 32 k = utop := BitVec.eq_of_toNat_eq (by rw [hva, he, toNat_utop])
      rw [hutop] at hv
      exact guard hu.system hd hcu hv
    have hpdx : pdx (dst + BitVec.ofNat 32 k) < 955 := by
      rw [pdx_eq, hva]
      omega
    obtain ⟨hl, hw'⟩ := hu.store hd hcu hpdx hv
    refine ⟨by omega, hl, (hw.trans hw' hd (hu.system.balanced.own_user d hd)).congr ?_⟩
    intro va _
    exact window_succ_top hva

/-- A loop of stores that goes down, below UTOP. -/
theorem storeDown (h : Loading m s t L fl efl d) (hd : d ∈ L.dirs) (hcr : s.cr3 = d) (c : Nat → Byte)
    (n : Nat) (hend : dst.toNat + n ≤ utop.toNat) :
    Ensures (forRange (fun k => storeByte (dst + BitVec.ofNat 32 (n - 1 - k)) (c (n - 1 - k))) n) t
      fun _ u => Loading m s u L fl efl d ∧ Written t u L d (window dst n c) := by
  rw [toNat_utop] at hend
  refine (forRange_ensures (I := fun k u => Loading m s u L fl efl d ∧
    Written t u L d (upperWindow dst n c (n - k))) ?_ ?_).mono ?_
  · refine ⟨h, (Written.refl t L d).congr fun va _ => ?_⟩
    unfold upperWindow window
    split
    · rw [if_neg (by omega)]
    · rfl
  · rintro k hk u ⟨hu, hw⟩ ⟨⟩ v hv
    have hcu : u.cr3 = d := by rw [hu.paging, ← hcr]
    have hva : (dst + BitVec.ofNat 32 (n - 1 - k)).toNat = dst.toNat + (n - 1 - k) := by
      rw [BitVec.toNat_add, BitVec.toNat_ofNat]
      omega
    have hpdx : pdx (dst + BitVec.ofNat 32 (n - 1 - k)) < 955 := by
      rw [pdx_eq, hva]
      omega
    obtain ⟨hl, hw'⟩ := hu.store hd hcu hpdx hv
    refine ⟨hl, (hw.trans hw' hd (hu.system.balanced.own_user d hd)).congr ?_⟩
    intro va _
    have hstep : upperWindow dst n c (n - 1 - k) va = _ := window_succ_bottom hva (by omega)
    rw [show n - 1 - k + 1 = n - k by omega] at hstep
    rw [show n - (k + 1) = n - 1 - k by omega]
    exact hstep
  · rintro ⟨⟩ u ⟨hu, hw⟩
    refine ⟨hu, hw.congr fun va _ => ?_⟩
    rw [upperWindow, if_pos (by omega)]

theorem memcpy (h : Loading m s t L fl efl d) (hd : d ∈ L.dirs) (hcr : s.cr3 = d) {bin : Binary}
    {off len : Word} (hdst : dst.toNat ≤ utop.toNat)
    (hback : bin.start + off < dst → dst.toNat + len.toNat ≤ utop.toNat) :
    Ensures (Jos.memcpy dst bin off len) t fun _ u => dst.toNat + len.toNat ≤ utop.toNat ∧
      Loading m s u L fl efl d ∧
      Written t u L d (window dst len.toNat fun i => bin.bytes (off + BitVec.ofNat 32 i)) := by
  unfold Jos.memcpy
  dsimp only
  split
  · rename_i hover
    have hend := hback hover.1
    refine (h.storeDown hd hcr (fun i => bin.bytes (off + BitVec.ofNat 32 i)) len.toNat hend).mono ?_
    rintro ⟨⟩ u hu
    exact ⟨hend, hu⟩
  · exact h.storeUp hd hcr hdst _ _

theorem memset (h : Loading m s t L fl efl d) (hd : d ∈ L.dirs) (hcr : s.cr3 = d) {len : Word}
    (hdst : dst.toNat ≤ utop.toNat) (c : Byte) :
    Ensures (Jos.memset dst c len) t fun _ u => dst.toNat + len.toNat ≤ utop.toNat ∧
      Loading m s u L fl efl d ∧ Written t u L d (window dst len.toNat fun _ => c) :=
  h.storeUp hd hcr hdst _ _

/-- region_alloc in the address space that is being loaded. -/
theorem region {v : Nat} {fl' : List Nat} (h : Loading m s t L fl efl d) (hd : d ∈ L.dirs)
    (hv : v + n ≤ 955 * 1024) (hr : RegionMapped t u L fl fl' d v n) :
    Loading m s u L fl' efl d := by
  have hb := h.system.balanced
  refine ⟨h.system.regionMapped hd hv hr, h.paging.trans hr.paging,
    h.remaps.trans (hr.remaps.mono fun x hx => by omega) hb.own_user, ?_⟩
  intro x hx p hp
  by_cases hin : v ≤ x ∧ x < v + n
  · obtain ⟨p', hp', hentry, href, -⟩ := hr.entries (x - v) (by omega)
    have hone := hr.ref_eq_one hd hv (k := x - v) (by omega) hp' hentry href
    rw [show v + (x - v) = x by omega] at hentry
    rw [hentry] at hp
    have htarget : target (userEntry p') = some p' :=
      target_entry (hb.page_lt hp') (by decide) (by decide)
    rw [htarget] at hp
    cases hp
    exact hone
  · have hsame : u.entry d x = t.entry d x := hr.remaps.entry hb hd hx fun _ => hin
    have hmapped := hr.balanced.referenced_page hd (show x / 1024 < 955 by omega)
      (show x % 1024 < 1024 by omega) hp
    rw [hsame] at hp
    have hold := h.sole x hx p hp
    have hlt := hb.mapped d hd _ (show x / 1024 < 955 by omega) _ (show x % 1024 < 1024 by omega) p hp
    have hle := hr.ref p hlt
    rw [hold] at hle
    have hne := hmapped.1
    change _ ≤ max 1 1 at hle
    bv_omega

end Loading

end stores

/-- The segment lies below UTOP, with its part of the file where memmove would copy that
downwards. -/
def Proghdr.BelowUtop (ph : Proghdr) (b : Binary) : Prop :=
  ph.pVa.toNat + ph.pMemsz.toNat ≤ utop.toNat ∧
    (b.start + ph.pOffset < ph.pVa → ph.pVa.toNat + ph.pFilesz.toNat ≤ utop.toNat)

/-- Every loadable segment lies below UTOP. -/
def Binary.BelowUtop (b : Binary) : Prop :=
  ∀ k < b.rounds, (b.proghdr k).pType = elfProgLoad → (b.proghdr k).BelowUtop b

/-- What load_icode stores of one segment: its part of the file, and zeros after it. -/
def segmentBytes (b : Binary) (ph : Proghdr) (va : Word) : Option Byte :=
  (window (ph.pVa + ph.pFilesz) (ph.pMemsz - ph.pFilesz).toNat (fun _ => 0#8) va).or
    (window ph.pVa ph.pFilesz.toNat (fun i => b.bytes (ph.pOffset + BitVec.ofNat 32 i)) va)

/-- The pages region_alloc maps for the segment. -/
def Proghdr.Maps (ph : Proghdr) (v : Nat) : Prop :=
  pgnum ph.pVa ≤ v ∧ v < pgnum ph.pVa + (ph.pMemsz.toNat + 4095) / 4096

section segments

variable {m : Machine} {s t u : Kernel} {L : Ledger} {fl efl : List Nat} {d e n : Nat} {b : Binary}
  {ph : Proghdr} {va : Word}

/-- One loadable segment: fresh pages, and its bytes stored in them. -/
theorem Loading.segment (h : Loading m s t L fl efl d) (hd : d ∈ L.dirs) (hcr : s.cr3 = d)
    (he : (s.envs e).envPgdir = some d) (hph : ph.BelowUtop b) (hload : ph.pType = elfProgLoad) :
    Ensures (loadSegment e b ph) t fun _ u => ∃ t₁ fl₁,
      RegionMapped t t₁ L fl fl₁ d (pgnum ph.pVa) ((ph.pMemsz.toNat + 4095) / 4096) ∧
      Written t₁ u L d (segmentBytes b ph) ∧ Loading m s u L fl₁ efl d ∧
      ph.pFilesz.toNat ≤ ph.pMemsz.toNat := by
  obtain ⟨hmem, hfile⟩ := hph
  have het : (t.envs e).envPgdir = some d := by rw [h.paging, ← he]
  have hrange : pgnum ph.pVa + (ph.pMemsz.toNat + 4095) / 4096 ≤ 955 * 1024 := by
    rw [toNat_utop] at hmem
    rw [pgnum_eq]
    omega
  unfold loadSegment
  rw [if_pos hload]
  refine Ensures.bind (regionAlloc_mapped h.system.balanced het hd hmem) ?_
  rintro ⟨⟩ t₁ ⟨fl₁, hr⟩
  have h₁ := h.region hd hrange hr
  refine Ensures.bind (h₁.memcpy hd hcr (by omega) hfile) ?_
  rintro ⟨⟩ t₂ ⟨hend, h₂, hw₂⟩
  rw [toNat_utop] at hend hmem
  have hva : (ph.pVa + ph.pFilesz).toNat = ph.pVa.toNat + ph.pFilesz.toNat := by
    rw [BitVec.toNat_add]
    omega
  refine (h₂.memset hd hcr (by rw [hva, toNat_utop]; exact hend) 0#8).mono ?_
  rintro ⟨⟩ u ⟨hzero, hu, hwu⟩
  have hown := h₁.system.balanced.own_user d hd
  refine ⟨t₁, fl₁, hr, hw₂.trans hwu hd hown, hu, ?_⟩
  rw [hva, toNat_utop, BitVec.toNat_sub] at hzero
  have h1 := ph.pFilesz.isLt
  have h2 := ph.pMemsz.isLt
  omega

/-- Any program header keeps the address spaces in order. -/
theorem Loading.step (h : Loading m s t L fl efl d) (hd : d ∈ L.dirs) (hcr : s.cr3 = d)
    (he : (s.envs e).envPgdir = some d) (hph : ph.pType = elfProgLoad → ph.BelowUtop b) :
    Ensures (loadSegment e b ph) t fun _ u => ∃ fl', Loading m s u L fl' efl d := by
  by_cases hload : ph.pType = elfProgLoad
  · refine (h.segment hd hcr he (hph hload) hload).mono ?_
    rintro ⟨⟩ u ⟨-, fl₁, -, -, hu, -⟩
    exact ⟨fl₁, hu⟩
  · intro _ u hu
    rw [loadSegment, if_neg hload] at hu
    obtain ⟨-, rfl⟩ := pure_eq_ok.mp hu
    exact ⟨fl, h⟩

/-- load_icode, apart from its loop and the stack region. -/
theorem loadIcode_eq_ok (hd : (s.envs e).envPgdir = some d) (h : loadIcode e b s = .ok () t) :
    ∃ u v, forRange (fun k => loadSegment e b (b.proghdr k)) b.rounds (s.loadCr3 d) = .ok () u ∧
      regionAlloc e (ustacktop - pgsize) pgsize (u.loadCr3 u.kernPgdir) = .ok () v ∧
      b.eMagic = elfMagic ∧
      t = v.setEnv e { v.envs e with
        envTf := { (v.envs e).envTf with tfEsp := ustacktop, tfEip := b.eEntry } } := by
  rw [loadIcode, bind_ok (envPgdirPa_ok hd)] at h
  obtain ⟨_, u₁, hcr, h⟩ := bind_eq_ok.mp h
  obtain rfl := update_eq_ok.mp hcr
  obtain ⟨_, u₂, hcheck, h⟩ := bind_eq_ok.mp h
  obtain ⟨hmagic, rfl⟩ := check_eq_ok.mp hcheck
  obtain ⟨_, u, hloop, h⟩ := bind_eq_ok.mp h
  rw [bind_ok (read_apply u)] at h
  obtain ⟨_, u₃, hcr', h⟩ := bind_eq_ok.mp h
  obtain rfl := update_eq_ok.mp hcr'
  obtain ⟨_, v, hstack, h⟩ := bind_eq_ok.mp h
  obtain ⟨_, v', hesp, heip⟩ := bind_eq_ok.mp h
  obtain rfl := update_eq_ok.mp hesp
  obtain rfl := update_eq_ok.mp heip
  refine ⟨u, v, hloop, hstack, hmagic, ?_⟩
  simp only [Kernel.setEnv, Function.update_idem, Function.update_self]

theorem System.loadCr3 (h : System m s L fl efl) (p : Nat) : System m (s.loadCr3 p) L fl efl :=
  h.congr (h.envs.congr rfl) rfl rfl rfl rfl rfl (fun _ => Iff.rfl) fun _ _ => rfl

/-- Saving other registers leaves the address spaces as they are. -/
theorem System.setTf (h : System m s L fl efl) (e : Nat) (tf : Trapframe) :
    System m (s.setEnv e { s.envs e with envTf := tf }) L fl efl := by
  have hpart : (s.setEnv e { s.envs e with envTf := tf }).tablePart = s.tablePart :=
    modifyTf_keeps e (fun _ => tf) s () _ rfl
  obtain ⟨-, -, hsame⟩ := tablePart_eq hpart
  refine h.congr (h.envs.congr hpart) rfl rfl rfl rfl rfl ?_ ?_
  · intro i
    rw [Live, Live, (hsame i).2.1]
  · intro i _
    exact (hsame i).2.2.2

/-- The page that holds the initial stack. -/
def stackVpn : Nat := pgnum (ustacktop - pgsize)

/-- A state with the loading of the segments done, before the stack gets its page. -/
theorem Loading.stack {v : Kernel} (h : Loading m s t L fl efl d) (hd : d ∈ L.dirs)
    (he : (s.envs e).envPgdir = some d)
    (hrun : regionAlloc e (ustacktop - pgsize) pgsize (t.loadCr3 t.kernPgdir) = .ok () v) :
    ∃ fl', RegionMapped (t.loadCr3 t.kernPgdir) v L fl fl' d stackVpn 1 ∧ System m v L fl' efl ∧
      Remaps s v L d (· < 955 * 1024) ∧ Sole v d := by
  have hcr : Loading m (t.loadCr3 t.kernPgdir) (t.loadCr3 t.kernPgdir) L fl efl d :=
    ⟨h.system.loadCr3 _, Kernel.Paging.refl _, Remaps.of_mem rfl, h.sole⟩
  have het : ((t.loadCr3 t.kernPgdir).envs e).envPgdir = some d := by
    change (t.envs e).envPgdir = some d
    rw [h.paging, ← he]
  obtain ⟨fl', hr⟩ := regionAlloc_mapped hcr.system.balanced het hd (by decide) () v hrun
  have hone : (pgsize.toNat + 4095) / 4096 = 1 := by decide
  rw [hone] at hr
  have hv := hcr.region hd (by decide) hr
  have hcr' : Remaps t (t.loadCr3 t.kernPgdir) L d (· < 955 * 1024) := Remaps.of_mem rfl
  exact ⟨fl', hr, hv.system, h.remaps.trans (hcr'.trans hv.remaps h.system.balanced.own_user)
    h.system.balanced.own_user, hv.sole⟩

/-- load_icode changes the new address space only. -/
theorem System.loadIcode (h : System m s L fl efl) (hl : Live s e) (hd : (s.envs e).envPgdir = some d)
    (hsole : Sole s d) (hb : b.BelowUtop) : Ensures (Jos.loadIcode e b) s fun _ t =>
      ∃ fl', System m t L fl' efl ∧ Remaps s t L d (· < 955 * 1024) ∧ Sole t d := by
  rintro ⟨⟩ t hrun
  have hdm := h.env_mem hl hd
  obtain ⟨u, v, hloop, hstack, -, rfl⟩ := loadIcode_eq_ok hd hrun
  have hstart : Loading m (s.loadCr3 d) (s.loadCr3 d) L fl efl d :=
    ⟨h.loadCr3 d, Kernel.Paging.refl _, Remaps.of_mem rfl, hsole⟩
  obtain ⟨fl₁, hu⟩ := forRange_ensures
    (I := fun _ u => ∃ fl', Loading m (s.loadCr3 d) u L fl' efl d) ⟨fl, hstart⟩
    (fun k hk u ⟨fl', hu⟩ => hu.step hdm rfl hd (hb k hk)) () u hloop
  obtain ⟨fl₂, -, hv, hr, hs⟩ := hu.stack hdm hd hstack
  have hown := h.balanced.own_user
  have hcr : Remaps s (s.loadCr3 d) L d (· < 955 * 1024) := Remaps.of_mem rfl
  exact ⟨fl₂, hv.setTf e _, hcr.trans (hr.trans (Remaps.of_mem rfl) hown) hown, hs⟩

end segments

end Jos
