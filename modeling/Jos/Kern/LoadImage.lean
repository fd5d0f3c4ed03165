import Jos.Kern.RegionCovers

/-! The image load_icode builds: which bytes it leaves where, and what it leaves alone. -/
namespace Jos

open Prog

namespace Binary

variable (b : Binary)

/-- Program header `k` of the image describes a loadable segment. -/
def Loads (k : Nat) : Prop := k < b.ePhnum.toNat ∧ (b.proghdr k).pType = elfProgLoad

/-- The segment of header `k` has a byte in virtual page `v`. -/
def Touches (k v : Nat) : Prop := Touched (b.proghdr k).pVa (b.proghdr k).pMemsz v

/-- The images in question: the header table does not run over the end of the address space, and
the segments lie below the initial stack, on pages of their own. -/
structure Apart : Prop where
  table : b.start.toNat + b.ePhoff.toNat + 32 * b.ePhnum.toNat < 2 ^ 32
  size : ∀ k, b.Loads k → (b.proghdr k).pFilesz.toNat ≤ (b.proghdr k).pMemsz.toNat
  below : ∀ k, b.Loads k →
    (b.proghdr k).pVa.toNat + (b.proghdr k).pMemsz.toNat ≤ (ustacktop - pgsize).toNat
  apart : ∀ k k' v, b.Loads k → b.Loads k' → b.Touches k v → b.Touches k' v → k = k'

/-- Byte `i` of the segment of header `k`: from the file, then zeros. -/
def segmentByte (k i : Nat) : Byte :=
  if i < (b.proghdr k).pFilesz.toNat then b.bytes ((b.proghdr k).pOffset + BitVec.ofNat 32 i) else 0#8

end Binary

/-- What load_icode makes of the address space `d` of environment `e`, and of the rest. -/
structure ImageLoaded (b : Binary) (s t : Kernel) (e d : Nat) : Prop where
  segment : ∀ k, b.Loads k → ∀ i < (b.proghdr k).pMemsz.toNat,
    t.byteAt d ((b.proghdr k).pVa + BitVec.ofNat 32 i) = some (b.segmentByte k i)
  writable : ∀ va < utop, hwWalk t.mem d va = hwWalk s.mem d va ∨ UserCanWrite t.mem d va
  distinct : ∀ d', Directory t d' → ∀ va < utop, ∀ va' < utop, ∀ x x',
    hwWalk t.mem d va = some x → hwWalk t.mem d' va' = some x' → x.page = x'.page →
      d' = d ∧ pgnum va = pgnum va'
  stack : ∀ va, ustacktop - pgsize ≤ va → va < ustacktop → UserCanWrite t.mem d va
  elsewhere : ∀ va < utop, (∀ k, b.Loads k → ¬ b.Touches k (pgnum va)) → pgnum va ≠ stackVpn →
    hwWalk t.mem d va = hwWalk s.mem d va ∧ t.byteAt d va = s.byteAt d va
  headers : ∀ k < b.ePhnum.toNat, ¬ b.Loads k → ∀ u, loadSegment e b (b.proghdr k) u = .ok () u
  envs : t.envs = Function.update s.envs e { s.envs e with
    envTf := { (s.envs e).envTf with tfEsp := ustacktop, tfEip := b.eEntry } }
  kernPgdir : t.kernPgdir = s.kernPgdir
  cr3 : t.cr3 = t.kernPgdir
  others : ∀ e' d', e' ≠ e → Live s e' → (s.envs e').envPgdir = some d' → ∀ va < utop,
    hwWalk t.mem d' va = hwWalk s.mem d' va ∧ t.byteAt d' va = s.byteAt d' va

section headers

variable {b : Binary} {k v : Nat} {ph : Proghdr} {va : Word}

theorem Binary.Apart.rounds (h : b.Apart) : b.rounds = b.ePhnum.toNat := by
  have ht := h.table
  have hn := b.ePhnum.isLt
  have hstart : (b.start + b.ePhoff).toNat = b.start.toNat + b.ePhoff.toNat := by
    rw [BitVec.toNat_add]
    omega
  have hend : (b.start + b.ePhoff + b.ePhnum.setWidth 32 * 32#32).toNat =
      b.start.toNat + b.ePhoff.toNat + 32 * b.ePhnum.toNat := by
    rw [BitVec.toNat_add, hstart, BitVec.toNat_mul, BitVec.toNat_setWidth, BitVec.toNat_ofNat]
    omega
  unfold Binary.rounds
  simp only [BitVec.lt_def, hstart, hend]
  split <;> omega

theorem Binary.Apart.lt (h : b.Apart) (hk : b.Loads k) :
    (b.proghdr k).pVa.toNat + (b.proghdr k).pMemsz.toNat < 955 * 2 ^ 22 :=
  lt_of_le_of_lt (h.below k hk) (by decide)

theorem Binary.Apart.belowUtop (h : b.Apart) (hk : b.Loads k) : (b.proghdr k).BelowUtop b := by
  have hlt := h.lt hk
  have hsize := h.size k hk
  rw [Proghdr.BelowUtop, toNat_utop]
  omega

theorem Binary.Apart.segment_toNat (h : b.Apart) (hk : b.Loads k) {i : Nat}
    (hi : i < (b.proghdr k).pMemsz.toNat) :
    ((b.proghdr k).pVa + BitVec.ofNat 32 i).toNat = (b.proghdr k).pVa.toNat + i := by
  have hlt := h.lt hk
  rw [BitVec.toNat_add, BitVec.toNat_ofNat]
  omega

/-- The bytes of a segment are in the pages it touches. -/
theorem Binary.Apart.touches (h : b.Apart) (hk : b.Loads k) {i : Nat}
    (hi : i < (b.proghdr k).pMemsz.toNat) :
    b.Touches k (pgnum ((b.proghdr k).pVa + BitVec.ofNat 32 i)) := by
  refine ⟨_, ?_, ?_, rfl⟩
  · rw [h.segment_toNat hk hi]
    omega
  · rw [h.segment_toNat hk hi]
    omega

theorem Binary.Apart.pdx_lt (h : b.Apart) (hk : b.Loads k) {i : Nat}
    (hi : i < (b.proghdr k).pMemsz.toNat) :
    pdx ((b.proghdr k).pVa + BitVec.ofNat 32 i) < 955 := by
  have hlt := h.lt hk
  rw [pdx_eq, h.segment_toNat hk hi]
  omega

/-- A page in the stack page's place is out of every segment's reach. -/
theorem Binary.Apart.not_touches_stack (h : b.Apart) (hk : b.Loads k) (ht : b.Touches k v) :
    v < stackVpn := by
  have hbelow := h.below k hk
  rw [Binary.Touches, touched_iff] at ht
  have hstack : (ustacktop - pgsize).toNat = stackVpn * 4096 := by decide
  omega

/-- region_alloc maps pages of the segment only. -/
theorem Proghdr.Maps.touched (h : ph.Maps v) (hlt : ph.pVa.toNat + ph.pMemsz.toNat ≤ 2 ^ 32) :
    Touched ph.pVa ph.pMemsz v := by
  obtain ⟨h1, h2⟩ := h
  rw [pgnum_eq] at h1 h2
  rw [touched_iff]
  omega

/-- The bytes stored for a segment, one by one. -/
theorem segmentBytes_at (hsize : ph.pFilesz.toNat ≤ ph.pMemsz.toNat) {i : Nat}
    (hi : i < ph.pMemsz.toNat) :
    segmentBytes b ph (ph.pVa + BitVec.ofNat 32 i) = some
      (if i < ph.pFilesz.toNat then b.bytes (ph.pOffset + BitVec.ofNat 32 i) else 0#8) := by
  have hsub : (ph.pVa + BitVec.ofNat 32 i - ph.pVa).toNat = i := by
    rw [BitVec.toNat_sub, BitVec.toNat_add, BitVec.toNat_ofNat]
    omega
  have hzero : (ph.pVa + BitVec.ofNat 32 i - (ph.pVa + ph.pFilesz)).toNat =
      if i < ph.pFilesz.toNat then 2 ^ 32 + i - ph.pFilesz.toNat else i - ph.pFilesz.toNat := by
    rw [BitVec.toNat_sub, BitVec.toNat_add, BitVec.toNat_add, BitVec.toNat_ofNat]
    split <;> omega
  have hlen : (ph.pMemsz - ph.pFilesz).toNat = ph.pMemsz.toNat - ph.pFilesz.toNat := by
    rw [BitVec.toNat_sub]
    omega
  unfold segmentBytes window
  rw [hsub, hzero, hlen]
  by_cases hf : i < ph.pFilesz.toNat
  · rw [if_pos hf, if_pos hf, if_pos hf, if_neg (by omega)]
    rfl
  · rw [if_neg hf, if_neg hf, if_neg hf, if_pos (by omega)]
    rfl

/-- Nothing is stored outside the pages the segment touches. -/
theorem segmentBytes_untouched (hsize : ph.pFilesz.toNat ≤ ph.pMemsz.toNat)
    (hlt : ph.pVa.toNat + ph.pMemsz.toNat < 2 ^ 32)
    (hn : ¬ Touched ph.pVa ph.pMemsz (pgnum va)) : segmentBytes b ph va = none := by
  have hva := va.isLt
  have hout : ¬ (ph.pVa.toNat ≤ va.toNat ∧ va.toNat < ph.pVa.toNat + ph.pMemsz.toNat) :=
    fun ⟨h1, h2⟩ => hn ⟨va, h1, h2, rfl⟩
  unfold segmentBytes window
  rw [if_neg, if_neg, Option.none_or]
  · rw [BitVec.toNat_sub]
    omega
  · rw [BitVec.toNat_sub, BitVec.toNat_sub, BitVec.toNat_add]
    omega

end headers

/-- The image after the first `n` program headers. -/
structure SegmentsLoaded (b : Binary) (n : Nat) (s t : Kernel) (d : Nat) : Prop where
  bytes : ∀ k < n, b.Loads k → ∀ i < (b.proghdr k).pMemsz.toNat,
    t.byteAt d ((b.proghdr k).pVa + BitVec.ofNat 32 i) = some (b.segmentByte k i)
  entries : ∀ v < 955 * 1024, t.entry d v = s.entry d v ∨ ∃ p < 2 ^ 20, t.entry d v = userEntry p
  frame : ∀ va, pdx va < 955 → (∀ k < n, b.Loads k → ¬ b.Touches k (pgnum va)) →
    hwWalk t.mem d va = hwWalk s.mem d va ∧ t.byteAt d va = s.byteAt d va

section loading

variable {m : Machine} {s t t₁ u : Kernel} {L : Ledger} {fl fl₁ efl : List Nat} {d d' e k n p v : Nat}
  {b : Binary} {va : Word} {V : Nat → Prop} {W : Word → Option Byte}

/-- The processor lets the user write where region_alloc has been. -/
theorem System.userEntry_walk (h : System m s L fl efl) (hd : d ∈ L.dirs) (hva : pdx va < 955)
    (hp : p < 2 ^ 20) (hentry : s.entry d (pgnum va) = userEntry p) :
    hwWalk s.mem d va = some ⟨p, true, true⟩ := by
  rw [System.entry_pgnum] at hentry
  have hpte : target (s.pte d (pdx va) (ptx va)) = some p := by
    rw [hentry]
    exact target_entry hp (by decide) (by decide)
  rw [hwWalk_eq_some]
  rcases h.pdes d hd (pdx va) (mem_kernOwn.mpr (by omega)) with hzero | ⟨q, hpde⟩
  · rw [Kernel.pte_of_no_table (by rw [hzero, target_zero]), target_zero] at hpte
    cases hpte
  · have hflags : ∀ f : Word, f.toNat < 4096 → Has (pteP ||| pteU ||| pteW) f →
        Has (pteU ||| pteW ||| pteP) f → Has (s.pde d (pdx va)) f ∧ Has (s.pte d (pdx va) (ptx va)) f := by
      intro f hf h1 h2
      rw [hpde, hentry, tableEntry_eq, userEntry, has_entry hf, has_entry hf]
      exact ⟨h1, h2⟩
    exact ⟨hpte, (decide_eq_true (hflags pteU (by decide) (by decide) (by decide))).symm,
      (decide_eq_true (hflags pteW (by decide) (by decide) (by decide))).symm⟩

/-- An address outside the remapped pages keeps its translation and its byte. -/
theorem System.byteAt_remaps (h : System m s L fl efl) (hr : Remaps s t L d V) (hd : d ∈ L.dirs)
    (hd' : d' ∈ L.dirs) (hva : pdx va < 955) (hn : d' = d → ¬ V (pgnum va)) :
    hwWalk t.mem d' va = hwWalk s.mem d' va ∧ t.byteAt d' va = s.byteAt d' va := by
  have hwalk := hr.walk hd hd' (h.balanced.own_user d' hd' _ hva) hn
  refine ⟨hwalk, ?_⟩
  unfold Kernel.byteAt
  rw [hwalk]
  cases hx : hwWalk s.mem d' va with
  | none => rfl
  | some x =>
    have hpage := (hwWalk_eq_some.mp hx).1
    obtain ⟨hdata, -⟩ := h.data d' hd' _ hva _ (ptx_lt va) _ hpage
    obtain ⟨hmem, -⟩ := hr.data d' hd' _ hva _ (ptx_lt va)
      (fun he => pgnum_eq_indices va ▸ hn he) _ hpage hdata
    rw [Option.map_some, Option.map_some, Kernel.pageByte, Kernel.pageByte, hmem]

namespace SegmentsLoaded

theorem zero (b : Binary) (s : Kernel) (d : Nat) : SegmentsLoaded b 0 s s d where
  bytes := fun _ hk => absurd hk (Nat.not_lt_zero _)
  entries := fun _ _ => Or.inl rfl
  frame := fun _ _ _ => ⟨rfl, rfl⟩

/-- A header of another type. -/
theorem skip (h : SegmentsLoaded b n s t d) (hn : ¬ b.Loads n) : SegmentsLoaded b (n + 1) s t d where
  bytes := by
    intro k hk hload
    have hne : k ≠ n := by
      rintro rfl
      exact hn hload
    exact h.bytes k (by omega) hload
  entries := h.entries
  frame := fun va hva hall => h.frame va hva fun k hk => hall k (by omega)

/-- A loadable segment: region_alloc's pages first, then the bytes in them. -/
theorem segment (h : SegmentsLoaded b n s t d) (hb : b.Apart) (hn : b.Loads n)
    (hsys : System m t L fl efl) (hd : d ∈ L.dirs)
    (hr : RegionMapped t t₁ L fl fl₁ d (pgnum (b.proghdr n).pVa)
      (((b.proghdr n).pMemsz.toNat + 4095) / 4096))
    (hw : Written t₁ u L d (segmentBytes b (b.proghdr n))) : SegmentsLoaded b (n + 1) s u d := by
  have hown := hsys.balanced.own_user d hd
  have hlt := hb.lt hn
  have hsize := hb.size n hn
  -- a page the segment does not touch stays as it was
  have hkeep : ∀ va, pdx va < 955 → ¬ b.Touches n (pgnum va) →
      hwWalk u.mem d va = hwWalk t.mem d va ∧ u.byteAt d va = t.byteAt d va := by
    intro va hva hnt
    obtain ⟨hwalk, hbyte⟩ := hsys.byteAt_remaps hr.remaps hd hd hva fun _ hmaps =>
      hnt (Proghdr.Maps.touched hmaps (by omega))
    rw [hw.walk hd (hown _ hva), hw.bytes va hva, segmentBytes_untouched hsize (by omega) hnt,
      Option.none_or]
    exact ⟨hwalk, hbyte⟩
  refine ⟨?_, ?_, ?_⟩
  · intro k hk hload i hi
    by_cases hkn : k = n
    · subst hkn
      rw [hw.bytes _ (hb.pdx_lt hload hi), segmentBytes_at hsize hi, Option.some_or]
      rfl
    · have hnt : ¬ b.Touches n (pgnum ((b.proghdr k).pVa + BitVec.ofNat 32 i)) :=
        fun hc => hkn (hb.apart k n _ hload hn (hb.touches hload hi) hc)
      rw [(hkeep _ (hb.pdx_lt hload hi) hnt).2]
      exact h.bytes k (by omega) hload i hi
  · intro v hv
    rw [hw.entry hd hown hv]
    by_cases hin : (b.proghdr n).Maps v
    · obtain ⟨h1, h2⟩ := hin
      obtain ⟨p, hp, hentry, -⟩ := hr.entries (v - pgnum (b.proghdr n).pVa) (by omega)
      rw [show pgnum (b.proghdr n).pVa + (v - pgnum (b.proghdr n).pVa) = v by omega] at hentry
      exact Or.inr ⟨p, hsys.balanced.page_lt hp, hentry⟩
    · rw [hr.remaps.entry hsys.balanced hd hv fun _ => hin]
      exact h.entries v hv
  · intro va hva hall
    obtain ⟨hwalk, hbyte⟩ := hkeep va hva (hall n (by omega) hn)
    obtain ⟨hwalk', hbyte'⟩ := h.frame va hva fun k hk => hall k (by omega)
    exact ⟨hwalk.trans hwalk', hbyte.trans hbyte'⟩

end SegmentsLoaded

/-- One round of load_icode's loop. -/
theorem Loading.image (h : Loading m s t L fl efl d) (hd : d ∈ L.dirs) (hcr : s.cr3 = d)
    (he : (s.envs e).envPgdir = some d) (hb : b.Apart) (hn : n < b.ePhnum.toNat)
    (himage : SegmentsLoaded b n s t d) :
    Ensures (loadSegment e b (b.proghdr n)) t fun _ u => ∃ fl', Loading m s u L fl' efl d ∧
      SegmentsLoaded b (n + 1) s u d := by
  by_cases hload : (b.proghdr n).pType = elfProgLoad
  · refine (h.segment hd hcr he (hb.belowUtop ⟨hn, hload⟩) hload).mono ?_
    rintro ⟨⟩ u ⟨t₁, fl₁, hr, hw, hu, -⟩
    exact ⟨fl₁, hu, himage.segment hb ⟨hn, hload⟩ h.system hd hr hw⟩
  · intro _ u hu
    rw [loadSegment, if_neg hload] at hu
    obtain ⟨-, rfl⟩ := pure_eq_ok.mp hu
    exact ⟨fl, h, himage.skip fun hc => hload hc.2⟩

theorem pgnum_stack (hlo : ustacktop - pgsize ≤ va) (hhi : va < ustacktop) : pgnum va = stackVpn := by
  rw [BitVec.le_def, show (ustacktop - pgsize).toNat = stackVpn * 4096 by decide] at hlo
  rw [BitVec.lt_def, show ustacktop.toNat = stackVpn * 4096 + 4096 by decide] at hhi
  rw [pgnum_eq]
  omega

/-- load_icode builds the image. -/
theorem System.loadIcode_image (h : System m s L fl efl) (hl : Live s e)
    (hd : (s.envs e).envPgdir = some d) (hsole : Sole s d) (hb : b.Apart)
    (hrun : Jos.loadIcode e b s = .ok () t) : ImageLoaded b s t e d := by
  have hdm := h.env_mem hl hd
  obtain ⟨u, v, hloop, hstack, -, rfl⟩ := loadIcode_eq_ok hd hrun
  rw [hb.rounds] at hloop
  have hstart : Loading m (s.loadCr3 d) (s.loadCr3 d) L fl efl d :=
    ⟨h.loadCr3 d, Kernel.Paging.refl _, Remaps.of_mem rfl, hsole⟩
  obtain ⟨⟨fl₁, hu⟩, himage⟩ := forRange_ensures
    (I := fun n u => (∃ fl', Loading m (s.loadCr3 d) u L fl' efl d) ∧
      SegmentsLoaded b n (s.loadCr3 d) u d) ⟨⟨fl, hstart⟩, SegmentsLoaded.zero b _ d⟩
    (fun k hk u ⟨⟨fl', hu⟩, hi⟩ => (hu.image hdm rfl hd hb hk hi).mono
      fun _ _ ⟨fl'', hu', hi'⟩ => ⟨⟨fl'', hu'⟩, hi'⟩) () u hloop
  obtain ⟨fl₂, hr, hv, hrem, hs⟩ := hu.stack hdm hd hstack
  have hsysu := hu.system.loadCr3 u.kernPgdir
  have hsysv := hv.setTf e { (v.envs e).envTf with tfEsp := ustacktop, tfEip := b.eEntry }
  have hpdx : ∀ va < utop, pdx va < 955 := fun va hva => (lt_utop_iff va).mp hva
  have henvs : v.envs = s.envs := by
    rw [hr.paging]
    change u.envs = _
    rw [hu.paging]
    rfl
  have hkern : v.kernPgdir = u.kernPgdir := by
    rw [hr.paging]
    rfl
  -- outside the stack page, the stack region changes nothing
  have hkeep : ∀ va, pdx va < 955 → pgnum va ≠ stackVpn →
      hwWalk v.mem d va = hwWalk u.mem d va ∧ v.byteAt d va = u.byteAt d va := by
    intro va hva hne
    exact hsysu.byteAt_remaps hr.remaps hdm hdm hva fun _ hc => hne (by omega)
  have hstackPage : ∀ va, pdx va < 955 → pgnum va = stackVpn → UserCanWrite v.mem d va := by
    intro va hva hpage
    obtain ⟨p, hp, hentry, -⟩ := hr.entries 0 (by omega)
    rw [Nat.add_zero, ← hpage] at hentry
    exact ⟨_, hv.userEntry_walk hdm hva (hsysu.balanced.page_lt hp) hentry, rfl, rfl⟩
  refine ⟨?_, ?_, ?_, ?_, ?_, ?_, ?_, ?_, ?_, ?_⟩
  · intro k hk i hi
    have hne := hb.not_touches_stack hk (hb.touches hk hi)
    exact (hkeep _ (hb.pdx_lt hk hi) (by omega)).2.trans (himage.bytes k hk.1 hk i hi)
  · intro va hva
    have hva := hpdx va hva
    by_cases hpage : pgnum va = stackVpn
    · exact Or.inr (hstackPage va hva hpage)
    · obtain ⟨hwalk, -⟩ := hkeep va hva hpage
      change hwWalk v.mem d va = _ ∨ UserCanWrite v.mem d va
      unfold UserCanWrite
      rw [hwalk]
      rcases himage.entries (pgnum va) (System.pgnum_lt_utop hva) with hold | ⟨p, hp, hentry⟩
      · rw [System.entry_pgnum, System.entry_pgnum] at hold
        exact Or.inl (hu.remaps.walk_of_entry hva hold)
      · exact Or.inr ⟨_, hu.system.userEntry_walk hdm hva hp hentry, rfl, rfl⟩
  · intro d' hd' va hva va' hva' x x' hx hx' hpage
    have hp := (hwWalk_eq_some.mp hx).1
    have hp' := (hwWalk_eq_some.mp hx').1
    rw [← hpage] at hp'
    have hone := hs (pgnum va) (System.pgnum_lt_utop (hpdx va hva)) x.page
      (by rw [System.entry_pgnum]; exact hp)
    obtain ⟨-, -, huniq⟩ := hsysv.balanced.sole hdm (hpdx va hva) (ptx_lt va) hp hone
    obtain ⟨rfl, hi, hj⟩ := huniq d' ((hsysv.dirs d').mpr hd') _ (hpdx va' hva') _ (ptx_lt va') hp'
    rw [pgnum_eq_indices, pgnum_eq_indices, hi, hj]
    exact ⟨rfl, rfl⟩
  · intro va hlo hhi
    have hva : va < utop := by
      have htop : ustacktop.toNat ≤ utop.toNat := by decide
      rw [BitVec.lt_def] at hhi ⊢
      omega
    exact hstackPage va (hpdx va hva) (pgnum_stack hlo hhi)
  · intro va hva hall hne
    obtain ⟨hwalk, hbyte⟩ := hkeep va (hpdx va hva) hne
    obtain ⟨hwalk', hbyte'⟩ := himage.frame va (hpdx va hva) fun k _ => hall k
    exact ⟨hwalk.trans hwalk', hbyte.trans hbyte'⟩
  · intro k hk hn u
    rw [loadSegment, if_neg fun hc => hn ⟨hk, hc⟩]
    rfl
  · change Function.update v.envs e _ = _
    rw [henvs]
  · change v.kernPgdir = _
    rw [hkern, hu.paging]
    rfl
  · change v.cr3 = v.kernPgdir
    rw [hkern, hr.paging]
    rfl
  · intro e' d' hne hl' hd' va hva
    have hother : d' ≠ d := by
      rintro rfl
      exact hne (h.env_inj e' e d' hl' hl hd' hd)
    have hsame := (h.loadCr3 d).byteAt_remaps hrem hdm (h.env_mem hl' hd') (hpdx va hva)
      fun he => absurd he hother
    exact hsame

end loading

/-- The pages region_alloc takes for the first `n` headers: one for each page it maps, and one for
each table it may need. -/
def Binary.pagesFor (b : Binary) : Nat → Nat
  | 0 => 0
  | n + 1 => b.pagesFor n + if (b.proghdr n).pType = elfProgLoad then
      2 * (((b.proghdr n).pMemsz.toNat + 4095) / 4096) else 0

section returns

variable {m : Machine} {mem : Nat → Nat → Word} {s t : Kernel} {L : Ledger} {fl efl : List Nat} {d e n : Nat}
  {b : Binary}

namespace Loading

/-- Stores to pages that region_alloc has mapped do not fault. -/
theorem stores (h : Loading m s t L fl efl d) (hd : d ∈ L.dirs) (hcr : s.cr3 = d)
    (addr : Nat → Word) (c : Nat → Byte) (hmap : ∀ k < n, pdx (addr k) < 955 ∧
      ∃ p < 2 ^ 20, t.entry d (pgnum (addr k)) = userEntry p) :
    Returns (forRange (fun k => storeByte (addr k) (c k)) n) t fun _ u => Loading m s u L fl efl d ∧
      ∀ v < 955 * 1024, u.entry d v = t.entry d v := by
  refine forRange_returns (I := fun _ u => Loading m s u L fl efl d ∧
    ∀ v < 955 * 1024, u.entry d v = t.entry d v) ⟨h, fun _ _ => rfl⟩ ?_
  rintro k hk u ⟨hu, hsame⟩
  have hown := hu.system.balanced.own_user d hd
  have hcu : u.cr3 = d := by rw [hu.paging, ← hcr]
  obtain ⟨hva, p, hp, hentry⟩ := hmap k hk
  rw [← hsame _ (System.pgnum_lt_utop hva)] at hentry
  have hwalk := hu.system.userEntry_walk hd hva hp hentry
  rw [← hcu] at hwalk
  have hrun : storeByte (addr k) (c k) u = _ := storeByte_ok hwalk rfl
  obtain ⟨hl, hw⟩ := hu.store hd hcu hva hrun
  refine Returns.of_ok hrun ⟨hl, fun v hv => ?_⟩
  rw [hw.entry hd hown hv]
  exact hsame v hv

/-- A segment whose pages region_alloc covers is loaded, given the memory. -/
theorem segment_returns {ph : Proghdr} (h : Loading m s t L fl efl d) (hd : d ∈ L.dirs)
    (hcr : s.cr3 = d) (he : (s.envs e).envPgdir = some d) (hload : ph.pType = elfProgLoad)
    (hsize : ph.pFilesz.toNat ≤ ph.pMemsz.toNat)
    (hlt : ph.pVa.toNat + ph.pMemsz.toNat ≤ utop.toNat) (hup : RoundsUp ph.pVa ph.pMemsz)
    (hfree : 2 * ((ph.pMemsz.toNat + 4095) / 4096) ≤ fl.length) :
    Returns (loadSegment e b ph) t fun _ u => ∃ fl', Loading m s u L fl' efl d ∧
      fl.length ≤ fl'.length + 2 * ((ph.pMemsz.toNat + 4095) / 4096) := by
  have het : (t.envs e).envPgdir = some d := by rw [h.paging, ← he]
  unfold loadSegment
  rw [if_pos hload]
  refine Returns.bind (regionAlloc_returns h.system.balanced het hd hlt hfree) ?_
  rintro ⟨⟩ t₁ ⟨fl₁, hr⟩
  rw [toNat_utop] at hlt
  have hrange : pgnum ph.pVa + (ph.pMemsz.toNat + 4095) / 4096 ≤ 955 * 1024 := by
    rw [pgnum_eq]
    omega
  have h₁ := h.region hd hrange hr
  -- every byte of the segment lies in a page of the region
  have hmap : ∀ va : Word, ph.pVa.toNat ≤ va.toNat → va.toNat < ph.pVa.toNat + ph.pMemsz.toNat →
      pdx va < 955 ∧ ∃ p < 2 ^ 20, t₁.entry d (pgnum va) = userEntry p := by
    intro va h1 h2
    have hin : pgnum ph.pVa ≤ pgnum va ∧
        pgnum va < pgnum ph.pVa + (ph.pMemsz.toNat + 4095) / 4096 := by
      rw [pgnum_eq, pgnum_eq]
      rcases hup with hnone | hup
      · rw [hnone, show (0 : Word).toNat = 0 from rfl] at h2
        omega
      · omega
    refine ⟨by rw [pdx_eq]; omega, ?_⟩
    obtain ⟨p, hp, hentry, -⟩ := hr.entries (pgnum va - pgnum ph.pVa) (by omega)
    rw [show pgnum ph.pVa + (pgnum va - pgnum ph.pVa) = pgnum va by omega] at hentry
    exact ⟨p, h.system.balanced.page_lt hp, hentry⟩
  have hadd : ∀ i < ph.pMemsz.toNat, (ph.pVa + BitVec.ofNat 32 i).toNat = ph.pVa.toNat + i := by
    intro i hi
    rw [BitVec.toNat_add, BitVec.toNat_ofNat]
    omega
  have hat : ∀ i < ph.pMemsz.toNat, pdx (ph.pVa + BitVec.ofNat 32 i) < 955 ∧
      ∃ p < 2 ^ 20, t₁.entry d (pgnum (ph.pVa + BitVec.ofNat 32 i)) = userEntry p := by
    intro i hi
    apply hmap
    · rw [hadd i hi]
      omega
    · rw [hadd i hi]
      omega
  have hcopy : Returns (Jos.memcpy ph.pVa b ph.pOffset ph.pFilesz) t₁ fun _ u =>
      Loading m s u L fl₁ efl d ∧ ∀ v < 955 * 1024, u.entry d v = t₁.entry d v := by
    unfold Jos.memcpy
    dsimp only
    split
    · exact h₁.stores hd hcr (fun k => ph.pVa + BitVec.ofNat 32 (ph.pFilesz.toNat - 1 - k)) _
        fun k hk => hat _ (by omega)
    · exact h₁.stores hd hcr (fun k => ph.pVa + BitVec.ofNat 32 k) _ fun k hk => hat _ (by omega)
  refine Returns.bind hcopy ?_
  rintro ⟨⟩ t₂ ⟨h₂, hsame⟩
  have hzero : Returns (Jos.memset (ph.pVa + ph.pFilesz) 0#8 (ph.pMemsz - ph.pFilesz)) t₂ fun _ u =>
      Loading m s u L fl₁ efl d ∧ ∀ v < 955 * 1024, u.entry d v = t₂.entry d v := by
    refine h₂.stores hd hcr (fun k => ph.pVa + ph.pFilesz + BitVec.ofNat 32 k) _ fun k hk => ?_
    have hva : (ph.pVa + ph.pFilesz + BitVec.ofNat 32 k).toNat =
        ph.pVa.toNat + ph.pFilesz.toNat + k := by
      rw [BitVec.toNat_sub] at hk
      rw [BitVec.toNat_add, BitVec.toNat_add, BitVec.toNat_ofNat]
      omega
    rw [BitVec.toNat_sub] at hk
    obtain ⟨hlow, p, hp, hentry⟩ := hmap (ph.pVa + ph.pFilesz + BitVec.ofNat 32 k)
      (by rw [hva]; omega) (by rw [hva]; omega)
    exact ⟨hlow, p, hp, by rw [hsame _ (System.pgnum_lt_utop hlow), hentry]⟩
  refine hzero.mono ?_
  rintro ⟨⟩ u ⟨hu, -⟩
  exact ⟨fl₁, hu, hr.length⟩

end Loading

theorem Binary.pagesFor_mono (b : Binary) {n k : Nat} (h : n ≤ k) : b.pagesFor n ≤ b.pagesFor k :=
  monotone_nat_of_le_succ (fun _ => Nat.le_add_right _ _) h

/-- load_icode gets to its end when the roundings of every segment agree and the memory is there. -/
theorem System.loadIcode_returns (h : System m s L fl efl) (hl : Live s e)
    (hd : (s.envs e).envPgdir = some d) (hsole : Sole s d) (hb : b.Apart)
    (hmagic : b.eMagic = elfMagic)
    (hup : ∀ k, b.Loads k → RoundsUp (b.proghdr k).pVa (b.proghdr k).pMemsz)
    (hfree : b.pagesFor b.ePhnum.toNat + 2 ≤ fl.length) :
    Returns (Jos.loadIcode e b) s fun _ _ => True := by
  have hdm := h.env_mem hl hd
  have hstart : Loading m (s.loadCr3 d) (s.loadCr3 d) L fl efl d :=
    ⟨h.loadCr3 d, Kernel.Paging.refl _, Remaps.of_mem rfl, hsole⟩
  have hloop : Returns (forRange (fun k => loadSegment e b (b.proghdr k)) b.ePhnum.toNat)
      (s.loadCr3 d) fun _ u => ∃ fl', Loading m (s.loadCr3 d) u L fl' efl d ∧
        fl.length ≤ fl'.length + b.pagesFor b.ePhnum.toNat := by
    refine forRange_returns (I := fun n u => ∃ fl', Loading m (s.loadCr3 d) u L fl' efl d ∧
      fl.length ≤ fl'.length + b.pagesFor n) ⟨fl, hstart, by omega⟩ ?_
    rintro n hn u ⟨fl', hu, hlen⟩
    have hrest := b.pagesFor_mono (show n + 1 ≤ b.ePhnum.toNat by omega)
    rw [Binary.pagesFor] at hrest ⊢
    by_cases hload : (b.proghdr n).pType = elfProgLoad
    · have hloads : b.Loads n := ⟨hn, hload⟩
      rw [if_pos hload] at hrest ⊢
      refine (hu.segment_returns hdm rfl hd hload (hb.size n hloads) (hb.belowUtop hloads).1
        (hup n hloads) (by omega)).mono ?_
      rintro ⟨⟩ u' ⟨fl'', hu', hlen'⟩
      exact ⟨fl'', hu', by omega⟩
    · rw [if_neg hload, loadSegment, if_neg hload]
      exact Returns.of_ok rfl ⟨fl', hu, hlen⟩
  rw [Jos.loadIcode]
  refine Returns.step (envPgdirPa_ok hd) (Returns.step rfl (Returns.step (check_true hmagic _) ?_))
  rw [hb.rounds]
  refine Returns.bind hloop ?_
  rintro ⟨⟩ u ⟨fl', hu, hlen⟩
  have hsysu := hu.system.loadCr3 u.kernPgdir
  have hdu : ((u.loadCr3 u.kernPgdir).envs e).envPgdir = some d := by
    change (u.envs e).envPgdir = some d
    rw [hu.paging]
    exact hd
  have hone : (pgsize.toNat + 4095) / 4096 = 1 := by decide
  refine Returns.step (read_apply u) (Returns.step (update_apply _ u) ?_)
  refine Returns.bind (regionAlloc_returns hsysu.balanced hdu hdm (by decide)
    (by rw [hone]; omega)) ?_
  rintro ⟨⟩ v -
  exact Returns.step (update_apply _ v) (Returns.of_ok (update_apply _ _) trivial)

/-- An image with one segment: eight bytes at 0x800020, of which the file has four. -/
def tinyImage : Binary where
  start := 0xF0120000#32
  bytes off := [0x7F, 0x45, 0x4C, 0x46, 1, 1, 1, 0, 0, 0, 0, 0, 0, 0, 0, 0,
    2, 0, 3, 0, 1, 0, 0, 0, 0x20, 0, 0x80, 0, 52, 0, 0, 0,
    0, 0, 0, 0, 0, 0, 0, 0, 52, 0, 32, 0, 1, 0, 0, 0, 0, 0, 0, 0,
    1, 0, 0, 0, 84, 0, 0, 0, 0x20, 0, 0x80, 0, 0x20, 0, 0x80, 0,
    4, 0, 0, 0, 8, 0, 0, 0, 7, 0, 0, 0, 0, 0x10, 0, 0,
    0xF4, 0xEB, 0xFD, 0xCC].getD off.toNat 0

theorem tinyImage_proghdr : tinyImage.proghdr 0 = ⟨1, 84, 0x800020, 4, 8⟩ := by decide

theorem tinyImage_loads {k : Nat} (h : tinyImage.Loads k) : k = 0 := by
  have hn : tinyImage.ePhnum.toNat = 1 := by decide
  have hk := h.1
  omega

theorem tinyImage_apart : tinyImage.Apart where
  table := by decide
  size := by
    intro k hk
    rw [tinyImage_loads hk, tinyImage_proghdr]
    decide
  below := by
    intro k hk
    rw [tinyImage_loads hk, tinyImage_proghdr]
    decide
  apart := fun k k' v hk hk' _ _ => (tinyImage_loads hk).trans (tinyImage_loads hk').symm

/-- In every reachable state, load_icode of an image whose segments keep to pages of their own
builds it in an address space that shares no page, such as an empty one. -/
theorem sysRun_loadIcode (h : SysRun m mem s) (hl : Live s e)
    (hd : (s.envs e).envPgdir = some d) (hsole : Sole s d) (hb : b.Apart)
    (hrun : loadIcode e b s = .ok () t) : ImageLoaded b s t e d := by
  obtain ⟨L, fl, efl, hsys⟩ := h.system
  exact hsys.loadIcode_image hl hd hsole hb hrun

theorem sysRun_loadIcode_smallMachine : ∃ s t e d, SysRun smallMachine (fun _ _ => 0) s ∧
    loadIcode e tinyImage s = .ok () t ∧ ImageLoaded tinyImage s t e d := by
  obtain ⟨s, e, d, L, fl, efl, hrun, hsys, hl, hd, hlen, hempty⟩ := emptyEnv_smallMachine
  have hsole : Sole s d := Sole.of_empty hempty
  have hup : ∀ k, tinyImage.Loads k → RoundsUp (tinyImage.proghdr k).pVa (tinyImage.proghdr k).pMemsz := by
    intro k hk
    rw [tinyImage_loads hk, tinyImage_proghdr]
    decide
  have hpages : tinyImage.pagesFor tinyImage.ePhnum.toNat = 2 := by decide
  obtain ⟨⟨⟩, t, ht, -⟩ := hsys.loadIcode_returns hl hd hsole tinyImage_apart (by decide) hup
    (by rw [hpages]; omega)
  exact ⟨s, t, e, d, hrun, ht, sysRun_loadIcode hrun hl hd hsole tinyImage_apart ht⟩

end returns

end Jos
