import Jos.Boot.Main
import Jos.Library.Overlay

/-! What the boot loader leaves in memory. -/
namespace Jos

open Prog

/-- Byte `x` of the kernel image, which starts at sector 1. -/
def BootState.image (s : BootState) (x : Nat) : Byte := s.disk (512 + x)

/-- A little-endian word of the image. -/
def imageLong (img : Nat → Byte) (x : Nat) : Word := (img (x + 3) ++ img (x + 2)) ++ (img (x + 1) ++ img x)

/-- Where segment `k` lies: in the file, in memory, and how long it is in both. -/
structure Segment where
  offset : Nat
  pa : Nat
  filesz : Nat
  memsz : Nat

def imagePhoff (img : Nat → Byte) : Nat := (imageLong img 28).toNat

def imagePhnum (img : Nat → Byte) : Nat := (img 45 ++ img 44 : BitVec 16).toNat

/-- The segment of program header `k`. -/
def imageSegment (img : Nat → Byte) (k : Nat) : Segment :=
  let ph := imagePhoff img + 32 * k
  ⟨(imageLong img (ph + 4)).toNat, (imageLong img (ph + 12)).toNat, (imageLong img (ph + 16)).toNat,
    (imageLong img (ph + 20)).toNat⟩

/-- What is asked of a kernel image. -/
structure Loadable (img : Nat → Byte) : Prop where
  magic : imageLong img 0 = elfMagic
  headers : imagePhoff img + 32 * imagePhnum img ≤ 4096
  sizes : ∀ k < imagePhnum img, (imageSegment img k).filesz ≤ (imageSegment img k).memsz
  ordered : ∀ k < imagePhnum img, ∀ j < k,
    (imageSegment img j).pa + (imageSegment img j).memsz ≤ (imageSegment img k).pa
  away : ∀ k < imagePhnum img, (imageSegment img k).pa + (imageSegment img k).memsz ≤ 0x10000 ∨
    0x11000 ≤ (imageSegment img k).pa
  congruent : ∀ k < imagePhnum img, (imageSegment img k).pa % 512 = (imageSegment img k).offset % 512
  noOverflow : ∀ k < imagePhnum img, (imageSegment img k).pa + (imageSegment img k).memsz < 2 ^ 32

/-- The address behind the last sector of segment `k` is one, too. -/
def SectorsFit (img : Nat → Byte) (k : Nat) : Prop :=
  (imageSegment img k).pa + (imageSegment img k).memsz + 512 ≤ 2 ^ 32

instance (img : Nat → Byte) (k : Nat) : Decidable (SectorsFit img k) := inferInstanceAs (Decidable (_ ≤ _))

section sectors

variable {s t : BootState} {dst offset pa endPa count a : Word} {rounds n : Nat}

theorem sectsize_eq : sectsize.toNat = 512 := rfl

/-- Sector numbers reach the drive unchanged. -/
theorem lbaSector_eq (h : offset.toNat < 2 ^ 28) : lbaSector offset = offset.toNat := by
  have hdev : (((offset >>> 24 ||| 0xE0).setWidth 8 : Byte) &&& 0x0F).toNat = offset.toNat / 2 ^ 24 := by
    have hnib : offset >>> 24 = (BitVec.ofNat 32 (offset.toNat / 2 ^ 24)) := by
      apply BitVec.eq_of_toNat_eq
      rw [BitVec.toNat_ushiftRight, Nat.shiftRight_eq_div_pow, BitVec.toNat_ofNat]
      omega
    have hall : ∀ m < 16, ((((BitVec.ofNat 32 m : Word) ||| 0xE0).setWidth 8 : Byte) &&& 0x0F).toNat = m := by
      decide
    rw [hnib, hall _ (by omega)]
  unfold lbaSector
  dsimp only
  rw [hdev]
  simp only [BitVec.toNat_setWidth, BitVec.toNat_ushiftRight, Nat.shiftRight_eq_div_pow]
  omega

theorem readsect_ok :
    readsect dst offset s = .ok () { s with mem := s.inSector dst (lbaSector offset) } := rfl

theorem inSector_eq {lba : Nat} : s.inSector dst lba a =
    if (a - dst).toNat < 512 then s.disk (lba * 512 + (a - dst).toNat) else s.mem a := rfl

/-- The bytes from `lo` up to `hi` are those of the disk from `x` on. -/
structure ReadIn (s t : BootState) (lo hi x : Nat) : Prop where
  disk : t.disk = s.disk
  mem : ∀ a : Word, t.mem a = if lo ≤ a.toNat ∧ a.toNat < hi then s.disk (x + (a.toNat - lo)) else s.mem a

/-- The sectors are read one behind the other. -/
theorem readsegLoop_ok (pa offset : Word) (rounds : Nat) (hpa : pa.toNat + 512 * n < 2 ^ 32)
    (hlast : endPa.toNat ≤ pa.toNat + 512 * n)
    (hfirst : ∀ k < n, pa.toNat + 512 * k < endPa.toNat) (hoff : offset.toNat + n < 2 ^ 28)
    (hrounds : n < rounds) : ∃ t, readsegLoop endPa rounds pa offset s = .ok () t ∧
      ReadIn s t pa.toNat (pa.toNat + 512 * n) (512 * offset.toNat) := by
  induction n generalizing s pa offset rounds with
  | zero =>
    obtain ⟨rounds, rfl⟩ : ∃ k, rounds = k + 1 := ⟨rounds - 1, by omega⟩
    refine ⟨s, ?_, rfl, fun a => ?_⟩
    · rw [readsegLoop, if_neg (by rw [BitVec.lt_def]; omega), pure_apply]
    · rw [if_neg (by omega)]
  | succ n ih =>
    obtain ⟨rounds, rfl⟩ : ∃ k, rounds = k + 1 := ⟨rounds - 1, by omega⟩
    have hlt := hfirst 0 (by omega)
    have hpa' : (pa + sectsize).toNat = pa.toNat + 512 := by
      rw [BitVec.toNat_add, sectsize_eq]
      omega
    have hoff' : (offset + 1).toNat = offset.toNat + 1 := by
      have hone : (1 : Word).toNat = 1 := rfl
      rw [BitVec.toNat_add, hone]
      omega
    obtain ⟨t, hrun, hread⟩ := ih (s := { s with mem := s.inSector pa (lbaSector offset) })
      (pa + sectsize) (offset + 1) rounds (by omega) (by omega)
      (fun k hk => by have := hfirst (k + 1) (by omega); omega) (by omega) (by omega)
    refine ⟨t, ?_, hread.disk, fun a => ?_⟩
    · rw [readsegLoop, if_pos (by rw [BitVec.lt_def]; omega), bind_ok readsect_ok, hrun]
    · have halt := a.isLt
      have hplt := pa.isLt
      rw [hread.mem a, hpa', hoff', lbaSector_eq (by omega)]
      dsimp only
      rw [inSector_eq]
      have hsub : (a - pa).toNat < 512 ↔ pa.toNat ≤ a.toNat ∧ a.toNat < pa.toNat + 512 := by
        rw [BitVec.toNat_sub]
        omega
      by_cases hin : pa.toNat ≤ a.toNat ∧ a.toNat < pa.toNat + 512 * (n + 1)
      · rw [if_pos hin]
        by_cases hsect : a.toNat < pa.toNat + 512
        · have hdist : (a - pa).toNat = a.toNat - pa.toNat := by
            rw [BitVec.toNat_sub]
            omega
          rw [if_neg (by omega), if_pos (hsub.mpr ⟨hin.1, hsect⟩), hdist]
          exact congrArg s.disk (by omega)
        · rw [if_pos (by omega)]
          exact congrArg s.disk (by omega)
      · have hnot : ¬ (a - pa).toNat < 512 := by
          intro hlt
          have hrange := hsub.mp hlt
          omega
        rw [if_neg hin, if_neg (by omega), if_neg hnot]

/-- Rounding down to a sector. -/
theorem toNat_sectorStart (pa : Word) : (pa &&& ~~~(sectsize - 1)).toNat = pa.toNat / 512 * 512 := by
  have hmask : ∀ i, (sectsize - 1).getLsbD i = decide (i < 9) := by
    intro i
    rw [BitVec.getLsbD]
    exact Nat.testBit_two_pow_sub_one 9 i
  have heq : pa &&& ~~~(sectsize - 1) = (pa >>> 9) <<< 9 := by
    ext i hi
    have hm : (sectsize - 1)[i] = decide (i < 9) := by
      rw [← BitVec.getLsbD_eq_getElem, hmask]
    simp only [BitVec.getElem_and, BitVec.getElem_not, hm, BitVec.getElem_shiftLeft]
    by_cases h : i < 9
    · simp [h]
    · simp [h, BitVec.getLsbD_eq_getElem hi, show 9 + (i - 9) = i by omega]
  have hlt := pa.isLt
  rw [heq, BitVec.toNat_shiftLeft, BitVec.toNat_ushiftRight, Nat.shiftLeft_eq, Nat.shiftRight_eq_div_pow]
  omega

/-- readseg reads whole sectors, from the one its range begins in to the one it ends in. -/
theorem readseg_ok (pa count offset : Word) (s : BootState) (hfits : pa.toNat + count.toNat + 512 ≤ 2 ^ 32) :
    ∃ t, readseg pa count offset s = .ok () t ∧ ReadIn s t (pa.toNat / 512 * 512)
      ((pa.toNat + count.toNat + 511) / 512 * 512) (512 * (offset.toNat / 512 + 1)) := by
  have hend : (pa + count).toNat = pa.toNat + count.toNat := by
    rw [BitVec.toNat_add]
    omega
  have hoff : (offset / sectsize + 1).toNat = offset.toNat / 512 + 1 := by
    have hone : (1 : Word).toNat = 1 := rfl
    have hlt := offset.isLt
    rw [BitVec.toNat_add, BitVec.toNat_udiv, sectsize_eq, hone]
    omega
  have hoffset := offset.isLt
  obtain ⟨t, hrun, hread⟩ := readsegLoop_ok (s := s) (pa &&& ~~~(sectsize - 1))
    (offset / sectsize + 1) ((pa + count).toNat / sectsize.toNat + 2)
    (n := (pa.toNat + count.toNat + 511) / 512 - pa.toNat / 512) (by rw [toNat_sectorStart]; omega)
    (show (pa + count).toNat ≤ _ by rw [toNat_sectorStart, hend]; omega)
    (fun k hk => by rw [toNat_sectorStart, hend]; omega) (by rw [hoff]; omega)
    (by rw [hend, sectsize_eq]; omega)
  refine ⟨t, hrun, hread.disk, fun a => ?_⟩
  rw [hread.mem, toNat_sectorStart, hoff]
  have hhi : pa.toNat / 512 * 512 + 512 * ((pa.toNat + count.toNat + 511) / 512 - pa.toNat / 512) =
      (pa.toNat + count.toNat + 511) / 512 * 512 := by omega
  rw [hhi]

/-- A range that ends in the last sector of all has no end: behind that sector comes address 0. -/
theorem readsegLoop_spins (hpa : pa.toNat % 512 = 0) (hend : 2 ^ 32 < endPa.toNat + 512) :
    ∃ t, readsegLoop endPa rounds pa offset s = .stop .spins t := by
  induction rounds generalizing s pa offset with
  | zero => exact ⟨s, rfl⟩
  | succ rounds ih =>
    have hlt := pa.isLt
    have hpa' : (pa + sectsize).toNat % 512 = 0 := by
      rw [BitVec.toNat_add, sectsize_eq]
      omega
    rw [readsegLoop, if_pos (by rw [BitVec.lt_def]; omega), bind_ok readsect_ok]
    exact ih hpa'

theorem readseg_spins (pa count offset : Word) (s : BootState) (hend : pa.toNat + count.toNat < 2 ^ 32)
    (hlast : 2 ^ 32 < pa.toNat + count.toNat + 512) :
    ∃ t, readseg pa count offset s = .stop .spins t := by
  refine readsegLoop_spins ?_ ?_
  · rw [toNat_sectorStart]
    omega
  · rw [BitVec.toNat_add]
    omega

end sectors

/-! The headers in the scratch space. -/

/-- The first page of the image is in the scratch space. -/
def HasHeaders (img : Nat → Byte) (t : BootState) : Prop :=
  ∀ x < 4096, t.mem (elfhdr + BitVec.ofNat 32 x) = img x

section headers

variable {img : Nat → Byte} {s t u : BootState} {x k n : Nat}

theorem elfhdr_add (x n : Nat) :
    elfhdr + BitVec.ofNat 32 x + BitVec.ofNat 32 n = elfhdr + BitVec.ofNat 32 (x + n) := by
  rw [BitVec.add_assoc, BitVec.ofNat_add]

theorem toNat_elfhdr_add (hx : x < 4096) : (elfhdr + BitVec.ofNat 32 x).toNat = 0x10000 + x := by
  have h : elfhdr.toNat = 0x10000 := rfl
  rw [BitVec.toNat_add, h, BitVec.toNat_ofNat]
  omega

theorem HasHeaders.half (h : HasHeaders img t) (hx : x + 1 < 4096) :
    t.half (elfhdr + BitVec.ofNat 32 x) = (img (x + 1) ++ img x : BitVec 16) := by
  have h1 : elfhdr + BitVec.ofNat 32 x + 1 = elfhdr + BitVec.ofNat 32 (x + 1) := elfhdr_add x 1
  rw [BootState.half, h1, h x (by omega), h (x + 1) hx]

theorem HasHeaders.long (h : HasHeaders img t) (hx : x + 3 < 4096) :
    t.long (elfhdr + BitVec.ofNat 32 x) = imageLong img x := by
  have h2 : elfhdr + BitVec.ofNat 32 x + 2 = elfhdr + BitVec.ofNat 32 (x + 2) := elfhdr_add x 2
  rw [BootState.long, h2, h.half (by omega), h.half (by omega), imageLong]

/-- The first page is read. -/
theorem readHeaders_ok (s : BootState) : ∃ t, readseg elfhdr (sectsize * 8) 0 s = .ok () t ∧
    t.disk = s.disk ∧ HasHeaders s.image t := by
  have hpa : elfhdr.toNat = 0x10000 := rfl
  have hcount : (sectsize * 8).toNat = 4096 := rfl
  have hzero : (0 : Word).toNat = 0 := rfl
  obtain ⟨t, hrun, hread⟩ := readseg_ok elfhdr (sectsize * 8) 0 s
    (by rw [hpa, hcount]; omega)
  refine ⟨t, hrun, hread.disk, fun x hx => ?_⟩
  rw [hread.mem, toNat_elfhdr_add hx, hpa, hcount, hzero, if_pos (by omega)]
  exact congrArg s.disk (by omega)

/-! The segments, one over the other. -/

/-- The sectors of segment `k` cover the address. -/
def SectorsCover (img : Nat → Byte) (k a : Nat) : Prop :=
  (imageSegment img k).pa / 512 * 512 ≤ a ∧
    a < ((imageSegment img k).pa + (imageSegment img k).memsz + 511) / 512 * 512

instance (img : Nat → Byte) (k a : Nat) : Decidable (SectorsCover img k a) :=
  inferInstanceAs (Decidable (_ ∧ _))

/-- The byte of the image that loading segment `k` puts at the address. -/
def sectorByte (img : Nat → Byte) (k a : Nat) : Byte :=
  img ((imageSegment img k).offset / 512 * 512 + (a - (imageSegment img k).pa / 512 * 512))

/-- The first `n` segments have been loaded. -/
structure LoadedTo (s t : BootState) (n : Nat) : Prop where
  disk : t.disk = s.disk
  headers : HasHeaders s.image t
  mem : ∀ a : Word, t.mem a = Overlay.after (SectorsCover s.image) (sectorByte s.image)
    (fun x => s.mem (BitVec.ofNat 32 x)) n a.toNat

theorem Loadable.header_in (h : Loadable img) (hk : k < imagePhnum img) :
    imagePhoff img + 32 * k + 32 ≤ 4096 := by
  have hhead := h.headers
  omega

/-- The segment's sectors stay clear of the scratch space. -/
theorem Loadable.not_cover (h : Loadable img) (hk : k < imagePhnum img) (hx : x < 4096) :
    ¬ SectorsCover img k (0x10000 + x) := by
  rintro ⟨h1, h2⟩
  rcases h.away k hk with hlow | hhigh
  · omega
  · omega

/-- The loop's step reads the header of segment `n` as it is in the image. -/
theorem LoadedTo.header (h : Loadable s.image) (ht : LoadedTo s t n) (hn : n < imagePhnum s.image) :
    readseg (t.long (elfhdr + BitVec.ofNat 32 (imagePhoff s.image + 32 * n) + 12))
        (t.long (elfhdr + BitVec.ofNat 32 (imagePhoff s.image + 32 * n) + 20))
        (t.long (elfhdr + BitVec.ofNat 32 (imagePhoff s.image + 32 * n) + 4)) =
      readseg (imageLong s.image (imagePhoff s.image + 32 * n + 12))
        (imageLong s.image (imagePhoff s.image + 32 * n + 20))
        (imageLong s.image (imagePhoff s.image + 32 * n + 4)) := by
  have hin := h.header_in hn
  have hlong : ∀ k, k + 3 < 32 → t.long (elfhdr + BitVec.ofNat 32 (imagePhoff s.image + 32 * n) +
      BitVec.ofNat 32 k) = imageLong s.image (imagePhoff s.image + 32 * n + k) := by
    intro k hk
    rw [elfhdr_add, ht.headers.long (by omega)]
  have h12 : t.long (elfhdr + BitVec.ofNat 32 (imagePhoff s.image + 32 * n) + 12) = _ := hlong 12 (by omega)
  have h20 : t.long (elfhdr + BitVec.ofNat 32 (imagePhoff s.image + 32 * n) + 20) = _ := hlong 20 (by omega)
  have h4 : t.long (elfhdr + BitVec.ofNat 32 (imagePhoff s.image + 32 * n) + 4) = _ := hlong 4 (by omega)
  rw [h12, h20, h4]

/-- One segment is loaded. -/
theorem LoadedTo.step (h : Loadable s.image) (ht : LoadedTo s t n) (hn : n < imagePhnum s.image)
    (hfit : SectorsFit s.image n) :
    ∃ u, readseg (imageLong s.image (imagePhoff s.image + 32 * n + 12))
        (imageLong s.image (imagePhoff s.image + 32 * n + 20))
        (imageLong s.image (imagePhoff s.image + 32 * n + 4)) t = .ok () u ∧ LoadedTo s u (n + 1) := by
  obtain ⟨u, hrun, hread⟩ := readseg_ok _ _ (imageLong s.image (imagePhoff s.image + 32 * n + 4)) t hfit
  have hmem : ∀ a : Word, u.mem a = if SectorsCover s.image n a.toNat then sectorByte s.image n a.toNat
      else t.mem a := by
    intro a
    rw [hread.mem, ht.disk]
    refine if_congr Iff.rfl ?_ rfl
    exact congrArg s.disk (by
      dsimp only [imageSegment]
      omega)
  refine ⟨u, hrun, hread.disk.trans ht.disk, fun x hx => ?_, fun a => ?_⟩
  · rw [hmem, toNat_elfhdr_add hx, if_neg (h.not_cover hn hx)]
    exact ht.headers x hx
  · rw [hmem, ht.mem]
    rfl

/-- The loop comes to its end when the sectors of all segments fit, and to none otherwise. -/
theorem loadSegments_outcome (h : Loadable s.image) {rounds m : Nat} (ht : LoadedTo s t n)
    (hn : n + m = imagePhnum s.image) (hrounds : m < rounds) :
    ((∀ k, n ≤ k → k < imagePhnum s.image → SectorsFit s.image k) ∧
      ∃ u, loadSegments (elfhdr + BitVec.ofNat 32 (imagePhoff s.image + 32 * imagePhnum s.image)) rounds
        (elfhdr + BitVec.ofNat 32 (imagePhoff s.image + 32 * n)) t = .ok () u ∧
          LoadedTo s u (imagePhnum s.image)) ∨
    (¬ (∀ k, n ≤ k → k < imagePhnum s.image → SectorsFit s.image k) ∧
      ∃ u, loadSegments (elfhdr + BitVec.ofNat 32 (imagePhoff s.image + 32 * imagePhnum s.image)) rounds
        (elfhdr + BitVec.ofNat 32 (imagePhoff s.image + 32 * n)) t = .stop .spins u) := by
  have hheaders := h.headers
  have hlt : ∀ k ≤ imagePhnum s.image,
      (elfhdr + BitVec.ofNat 32 (imagePhoff s.image + 32 * k)).toNat =
        0x10000 + (imagePhoff s.image + 32 * k) := by
    intro k hk
    have hbase : elfhdr.toNat = 0x10000 := rfl
    rw [BitVec.toNat_add, hbase, BitVec.toNat_ofNat]
    omega
  induction m generalizing n t rounds with
  | zero =>
    obtain ⟨rounds, rfl⟩ : ∃ k, rounds = k + 1 := ⟨rounds - 1, by omega⟩
    obtain rfl : n = imagePhnum s.image := by omega
    refine Or.inl ⟨fun k h1 h2 => absurd h2 (by omega), t, ?_, ht⟩
    rw [loadSegments, if_neg (by rw [BitVec.lt_def]; omega), pure_apply]
  | succ m ih =>
    obtain ⟨rounds, rfl⟩ : ∃ k, rounds = k + 1 := ⟨rounds - 1, by omega⟩
    have hlast := hlt (imagePhnum s.image) (Nat.le_refl _)
    have hhere := hlt n (by omega)
    have hnext : elfhdr + BitVec.ofNat 32 (imagePhoff s.image + 32 * n) + 32 =
        elfhdr + BitVec.ofNat 32 (imagePhoff s.image + 32 * (n + 1)) := elfhdr_add _ 32
    rw [loadSegments, if_pos (by rw [BitVec.lt_def, hlast, hhere]; omega), bind_ok (read_apply t),
      ht.header h (by omega), hnext]
    by_cases hfit : SectorsFit s.image n
    · obtain ⟨u, hrun, hu⟩ := ht.step h (by omega) hfit
      rw [bind_ok hrun]
      rcases ih hu (by omega) (show m < rounds by omega) with ⟨hall, hok⟩ | ⟨hnot, hstop⟩
      · refine Or.inl ⟨fun k h1 h2 => ?_, hok⟩
        rcases Nat.eq_or_lt_of_le h1 with rfl | h1
        · exact hfit
        · exact hall k h1 h2
      · exact Or.inr ⟨fun hall => hnot fun k h1 h2 => hall k (by omega) h2, hstop⟩
    · have hover := h.noOverflow n (by omega)
      have hend : 2 ^ 32 < (imageSegment s.image n).pa + (imageSegment s.image n).memsz + 512 :=
        Nat.lt_of_not_le hfit
      obtain ⟨u, hrun⟩ := readseg_spins _ _ (imageLong s.image (imagePhoff s.image + 32 * n + 4)) t hover hend
      exact Or.inr ⟨fun hall => hfit (hall n (Nat.le_refl n) (by omega)), u, bind_stop hrun⟩

/-- bootmain reads the headers and starts its loop at the first of them. -/
theorem bootmain_eq (h : Loadable s.image) : ∃ t, t.image = s.image ∧ LoadedTo t t 0 ∧
    bootmain s = (do
      loadSegments (elfhdr + BitVec.ofNat 32 (imagePhoff s.image + 32 * imagePhnum s.image))
        (imagePhnum s.image + 1) (elfhdr + BitVec.ofNat 32 (imagePhoff s.image + 32 * 0))
      let u ← read
      pure (u.long (elfhdr + 24)) : Prog BootFault BootState Word) t := by
  obtain ⟨t, hrun, hdisk, hhead⟩ := readHeaders_ok s
  have himage : t.image = s.image := by
    funext x
    rw [BootState.image, BootState.image, hdisk]
  have hzero : elfhdr + BitVec.ofNat 32 0 = elfhdr := BitVec.add_zero elfhdr
  have hmagic : t.long elfhdr = elfMagic := by
    rw [← hzero, hhead.long (by omega), h.magic]
  have hphoff : t.long (elfhdr + 28) = BitVec.ofNat 32 (imagePhoff s.image) := by
    rw [imagePhoff, BitVec.ofNat_toNat, BitVec.setWidth_eq]
    exact hhead.long (x := 28) (by omega)
  have hphnum : t.half (elfhdr + 44) = (s.image 45 ++ s.image 44 : BitVec 16) :=
    hhead.half (x := 44) (by omega)
  have heph : elfhdr + BitVec.ofNat 32 (imagePhoff s.image) +
      (s.image 45 ++ s.image 44 : BitVec 16).setWidth 32 * 32 =
      elfhdr + BitVec.ofNat 32 (imagePhoff s.image + 32 * imagePhnum s.image) := by
    rw [← elfhdr_add]
    refine congrArg _ ?_
    apply BitVec.eq_of_toNat_eq
    have h32 : (32 : Word).toNat = 32 := rfl
    rw [BitVec.toNat_mul, BitVec.toNat_setWidth, h32, BitVec.toNat_ofNat, imagePhnum]
    omega
  refine ⟨t, himage, ⟨rfl, himage ▸ hhead, fun a => ?_⟩, ?_⟩
  · rw [Overlay.after, BitVec.ofNat_toNat, BitVec.setWidth_eq]
  · rw [bootmain, bind_ok hrun, bind_ok (read_apply t), hmagic, bind_ok (check_true rfl t), hphoff, hphnum]
    dsimp only
    rw [heph]
    rfl

/-! What the segments leave of each other. -/

/-- Every byte of a segment that is in the file is where the segment is. -/
def Intact (img : Nat → Byte) (t : BootState) : Prop :=
  ∀ k < imagePhnum img, ∀ i < (imageSegment img k).filesz,
    t.mem (BitVec.ofNat 32 ((imageSegment img k).pa + i)) = img ((imageSegment img k).offset + i)

/-- Segment `k` is the last one that begins in the memory sector of the address. -/
def LastInSector (img : Nat → Byte) (k a : Nat) : Prop :=
  (imageSegment img k).pa / 512 = a / 512 ∧
    ∀ k', k < k' → k' < imagePhnum img → (imageSegment img k').pa / 512 ≠ a / 512

/-- Where a later segment begins in the memory sector of a segment's byte, the last such segment has the
same byte at that place of its own sector of the file. -/
def SharedAgree (img : Nat → Byte) : Prop :=
  ∀ j < imagePhnum img, ∀ i < (imageSegment img j).filesz, ∀ k, j < k → k < imagePhnum img →
    LastInSector img k ((imageSegment img j).pa + i) →
      img ((imageSegment img k).offset / 512 * 512 + ((imageSegment img j).pa + i) % 512) =
        img ((imageSegment img j).offset + i)

section shared

variable {img : Nat → Byte} {m : Nat → Byte} {j k a i : Nat}

/-- A segment's own bytes are in its sectors. -/
theorem Loadable.covers (h : Loadable img) (hj : j < imagePhnum img) (hi : i < (imageSegment img j).filesz) :
    SectorsCover img j ((imageSegment img j).pa + i) := by
  have hsize := h.sizes j hj
  constructor
  · omega
  · omega

/-- A later segment covers such a byte exactly when it begins in the byte's sector. -/
theorem Loadable.covers_later (h : Loadable img) (hjk : j < k) (hk : k < imagePhnum img)
    (hi : i < (imageSegment img j).filesz) : SectorsCover img k ((imageSegment img j).pa + i) ↔
      (imageSegment img k).pa / 512 = ((imageSegment img j).pa + i) / 512 := by
  have hsize := h.sizes j (by omega)
  have hord := h.ordered k hk j hjk
  constructor
  · rintro ⟨h1, h2⟩
    omega
  · intro hsect
    constructor
    · omega
    · omega

/-- The byte that a segment's own loading puts there is the right one. -/
theorem Loadable.sectorByte_own (h : Loadable img) (hj : j < imagePhnum img) :
    sectorByte img j ((imageSegment img j).pa + i) = img ((imageSegment img j).offset + i) := by
  have hcong := h.congruent j hj
  unfold sectorByte
  exact congrArg img (by omega)

/-- The byte that a later segment puts there is the one at that place of its sector. -/
theorem Loadable.sectorByte_later (hsect : (imageSegment img k).pa / 512 = a / 512) :
    sectorByte img k a = img ((imageSegment img k).offset / 512 * 512 + a % 512) := by
  unfold sectorByte
  exact congrArg img (by omega)

/-- Loaded one over the other, the segments are as the condition has it. -/
theorem Loadable.after_iff (h : Loadable img) :
    (∀ j < imagePhnum img, ∀ i < (imageSegment img j).filesz,
      Overlay.after (SectorsCover img) (sectorByte img) m (imagePhnum img) ((imageSegment img j).pa + i) =
        img ((imageSegment img j).offset + i)) ↔ SharedAgree img := by
  constructor
  · intro hint j hj i hi k hjk hk hlast
    rw [← hint j hj i hi, Overlay.after_last hk ((h.covers_later hjk hk hi).mpr hlast.1),
      Loadable.sectorByte_later hlast.1]
    intro k' hkk hk' hcov
    exact hlast.2 k' hkk hk' ((h.covers_later (by omega) hk' hi).mp hcov)
  · intro hshared j hj i hi
    obtain ⟨k, hjk, hk, hcov, hlast⟩ := Overlay.exists_last hj (h.covers hj hi)
    rw [Overlay.after_last hk hcov hlast]
    rcases Nat.eq_or_lt_of_le hjk with rfl | hjk
    · exact h.sectorByte_own hj
    · have hsect := (h.covers_later hjk hk hi).mp hcov
      rw [Loadable.sectorByte_later hsect]
      refine hshared j hj i hi k hjk hk ⟨hsect, fun k' hkk hk' hsame => ?_⟩
      exact hlast k' hkk hk' ((h.covers_later (by omega) hk' hi).mpr hsame)

/-- Segments that lie in the file as far apart as in memory share their sectors there, too. -/
theorem Loadable.sharedAgree (h : Loadable img) (htogether : ∀ k < imagePhnum img, ∀ j < k,
    (imageSegment img k).offset + (imageSegment img j).pa =
      (imageSegment img j).offset + (imageSegment img k).pa) :
    SharedAgree img := by
  intro j hj i hi k hjk hk hlast
  have hgap := htogether k hk j hjk
  have hsect := hlast.1
  have hcong := h.congruent k hk
  exact congrArg img (by omega)

/-- The memory shows what the sectors left. -/
theorem LoadedTo.intact_iff {s t : BootState} (h : Loadable s.image)
    (ht : LoadedTo s t (imagePhnum s.image)) : Intact s.image t ↔ SharedAgree s.image := by
  rw [← h.after_iff (m := fun x => s.mem (BitVec.ofNat 32 x))]
  have hmem : ∀ j < imagePhnum s.image, ∀ i < (imageSegment s.image j).filesz,
      t.mem (BitVec.ofNat 32 ((imageSegment s.image j).pa + i)) =
        Overlay.after (SectorsCover s.image) (sectorByte s.image) (fun x => s.mem (BitVec.ofNat 32 x))
          (imagePhnum s.image) ((imageSegment s.image j).pa + i) := by
    intro j hj i hi
    have hsize := h.sizes j hj
    have hend := h.noOverflow j hj
    rw [ht.mem, BitVec.toNat_ofNat, Nat.mod_eq_of_lt (by omega)]
  constructor
  · intro hint j hj i hi
    rw [← hmem j hj i hi]
    exact hint j hj i hi
  · intro hafter j hj i hi
    rw [hmem j hj i hi]
    exact hafter j hj i hi

end shared

/-- The boot loader calls the entry point, or its loop does not end. -/
theorem bootmain_outcome (h : Loadable s.image) :
    ((∀ k < imagePhnum s.image, SectorsFit s.image k) ∧
      ∃ u, bootmain s = .ok (imageLong s.image 24) u ∧ (Intact s.image u ↔ SharedAgree s.image)) ∨
    (¬ (∀ k < imagePhnum s.image, SectorsFit s.image k) ∧ ∃ u, bootmain s = .stop .spins u) := by
  obtain ⟨t, himage, ht, hmain⟩ := bootmain_eq h
  rw [hmain]
  rw [← himage] at h ⊢
  rcases loadSegments_outcome h ht (Nat.zero_add _) (Nat.lt_succ_self _) with
    ⟨hfit, u, hrun, hu⟩ | ⟨hnot, u, hrun⟩
  · have hentry : u.long (elfhdr + 24) = imageLong t.image 24 := hu.headers.long (x := 24) (by omega)
    refine Or.inl ⟨fun k hk => hfit k (Nat.zero_le k) hk, u, ?_, hu.intact_iff h⟩
    rw [bind_ok hrun, bind_ok (read_apply u), pure_apply, hentry]
  · exact Or.inr ⟨fun hall => hnot fun k _ hk => hall k hk, u, bind_stop hrun⟩

/-- The loop comes to its end, with every segment intact. -/
def LoadsIntact (s : BootState) : Prop :=
  ∃ t, bootmain s = .ok (imageLong s.image 24) t ∧ Intact s.image t

/-- The segments are loaded intact exactly when their sectors end within the address space and agree where
they are shared. -/
theorem bootmain_loads_iff (s : BootState) (h : Loadable s.image) :
    LoadsIntact s ↔ (∀ k < imagePhnum s.image, SectorsFit s.image k) ∧ SharedAgree s.image := by
  unfold LoadsIntact
  rcases bootmain_outcome h with ⟨hfit, u, hrun, hiff⟩ | ⟨hnot, u, hrun⟩
  · rw [hrun, ← hiff]
    constructor
    · rintro ⟨t, ht, hint⟩
      cases ht
      exact ⟨hfit, hint⟩
    · rintro ⟨-, hint⟩
      exact ⟨u, rfl, hint⟩
  · rw [hrun]
    constructor
    · rintro ⟨t, ht, -⟩
      cases ht
    · rintro ⟨hfit, -⟩
      exact absurd hfit hnot

end headers

/-- The headers of an image with two segments of 256 bytes, next to each other in memory. -/
def twoHeaders (offset : Word) : List Word :=
  [elfMagic, 0, 0, 0, 0x00030002, 1, 0x0010000C, 52, 0, 0, 0x00200034, 2, 0,
    1, 0x1000, 0xF0100000, 0x00100000, 0x100, 0x100, 7, 0x1000,
    1, offset, 0xF0100100, 0x00100100, 0x100, 0x100, 7, 0x1000]

/-- Such an image, with the second segment at the offset. -/
def twoSegments (offset : Word) (x : Nat) : Byte :=
  if x < 116 then getByte ((twoHeaders offset).getD (x / 4) 0) (x % 4) else BitVec.ofNat 8 (x / 4096)

/-- A machine with the image on its disk. -/
def bootDisk (img : Nat → Byte) : BootState := ⟨fun _ => 0, fun x => img (x - 512)⟩

theorem bootDisk_image (img : Nat → Byte) : (bootDisk img).image = img := by
  funext x
  exact congrArg img (Nat.add_sub_cancel_left 512 x)

theorem loadable_together : Loadable (twoSegments 0x1100) := by
  constructor <;> decide

theorem bootmain_loads_together : LoadsIntact (bootDisk (twoSegments 0x1100)) := by
  have himage := bootDisk_image (twoSegments 0x1100)
  have h := himage.symm ▸ loadable_together
  refine (bootmain_loads_iff (bootDisk (twoSegments 0x1100)) h).mpr ⟨?_, ?_⟩
  · rw [himage]
    decide
  · refine h.sharedAgree ?_
    rw [himage]
    decide

theorem loadable_apart : Loadable (twoSegments 0x2100) := by
  constructor <;> decide

/-- The second segment's sector is read over the first segment. -/
theorem not_sharedAgree_apart : ¬ SharedAgree (twoSegments 0x2100) := by
  intro h
  have hbyte := h 0 (by decide) 0 (by decide) 1 (by decide) (by decide) ⟨by decide, fun k' h1 h2 => by
    have hnum : imagePhnum (twoSegments 0x2100) = 2 := by decide
    omega⟩
  revert hbyte
  decide

theorem not_bootmain_loads : ¬ ∀ s : BootState, Loadable s.image → LoadsIntact s := by
  intro h
  have himage := bootDisk_image (twoSegments 0x2100)
  have hload := himage.symm ▸ loadable_apart
  obtain ⟨t, ht, hint⟩ := h (bootDisk (twoSegments 0x2100)) hload
  rcases bootmain_outcome hload with ⟨-, u, hrun, hiff⟩ | ⟨-, u, hrun⟩
  · rw [hrun] at ht
    cases ht
    exact not_sharedAgree_apart (himage ▸ hiff.mp hint)
  · rw [hrun] at ht
    cases ht

end Jos
