import Jos.Kern.InStep

/-! What a new environment can see of the memory it is given. -/
namespace Jos

open Prog

section loading

variable {m : Machine} {s₁ s₂ s s' t t' u u' : Kernel} {L : Ledger} {fl fl' efl : List Nat}
  {d e n p v : Nat} {va dst w : Word} {b : Binary} {ph : Proghdr}

/-- region_alloc takes the same pages in both runs. -/
theorem regionAlloc_follows (h : InStep s₁ s₂ L t t') (hsys : System m t L fl efl)
    (he : (t.envs e).envPgdir = some d) (hd : d ∈ L.dirs)
    (hlen : va.toNat + w.toNat ≤ utop.toNat) :
    Follows (regionAlloc e va w) (regionAlloc e va w) t t' fun _ u u' => InStep s₁ s₂ L u u' ∧
      ∃ fl', RegionMapped t u L fl fl' d (pgnum va) ((w.toNat + 4095) / 4096) := by
  have hrange : pgnum va + (w.toNat + 4095) / 4096 ≤ 955 * 1024 := by
    rw [toNat_utop] at hlen
    rw [pgnum_eq]
    omega
  rw [regionAlloc, regionRounds hlen, roundDown_eq]
  generalize (w.toNat + 4095) / 4096 = n at *
  refine forRange_follows (I := fun k u u' => InStep s₁ s₂ L u u' ∧
    ∃ fl', RegionMapped t u L fl fl' d (pgnum va) k) ⟨h, fl, RegionMapped.refl hsys.balanced⟩ ?_
  rintro k hk u u' ⟨hu, fl₁, hr⟩
  rw [page2pa_offset]
  have hsysu := hsys.regionMapped hd (by omega) hr
  have heu : (u.envs e).envPgdir = some d := by
    rw [hr.paging]
    exact he
  have hva : pdx (page2pa (pgnum va + k)) < 955 := by
    rw [pdx_page2pa (by omega)]
    omega
  have hmapped := regionPage_mapped hr.balanced heu hd (v := pgnum va + k) (by omega)
  refine ((regionPage_follows hu hsysu heu hd hva).and_ensures hmapped).mono ?_
  rintro ⟨⟩ v v' ⟨⟨fl₂, hr'⟩, hv⟩
  exact ⟨hv, fl₂, RegionMapped.succ hsys.balanced hd (by omega) hr hr'⟩

namespace Loading

/-- Both runs store the same bytes at the same addresses. -/
theorem stores_follow (h : Loading m s t L fl efl d) (hd : d ∈ L.dirs) (hcr : s.cr3 = d)
    (ht : InStep s₁ s₂ L t t') (addr : Nat → Word) (c : Nat → Byte)
    (hpdx : ∀ k < n, pdx (addr k) < 955) :
    Follows (forRange (fun k => storeByte (addr k) (c k)) n)
      (forRange (fun k => storeByte (addr k) (c k)) n) t t' fun _ u u' =>
        Loading m s u L fl efl d ∧ InStep s₁ s₂ L u u' := by
  refine forRange_follows (I := fun _ u u' => Loading m s u L fl efl d ∧ InStep s₁ s₂ L u u')
    ⟨h, ht⟩ ?_
  rintro k hk u u' ⟨hl, hu⟩ ⟨⟩ v hv
  have hva := hpdx k hk
  have hcu : u.cr3 = d := by rw [hl.paging, ← hcr]
  obtain ⟨hlv, -⟩ := hl.store hd hcu hva hv
  obtain ⟨x, hx, hw, rfl⟩ := storeByte_eq_ok hv
  rw [hcu] at hx
  obtain ⟨hdata, -⟩ := hl.page hd hva (hwWalk_eq_some.mp hx).1
  have hx' : hwWalk u'.mem u'.cr3 (addr k) = some x := by
    rw [hu.rest.cr3, hcu, hu.walk hd (hl.system.balanced.own_user d hd _ hva), hx]
  exact ⟨_, storeByte_ok hx' hw, hlv, hu.poke hdata _ _⟩

theorem storeUp_follows (h : Loading m s t L fl efl d) (hd : d ∈ L.dirs) (hcr : s.cr3 = d)
    (ht : InStep s₁ s₂ L t t') (hdst : dst.toNat ≤ utop.toNat) (c : Nat → Byte) (n : Nat) :
    Follows (forRange (fun k => storeByte (dst + BitVec.ofNat 32 k) (c k)) n)
      (forRange (fun k => storeByte (dst + BitVec.ofNat 32 k) (c k)) n) t t' fun _ u u' =>
        Loading m s u L fl efl d ∧ InStep s₁ s₂ L u u' := by
  refine Follows.of_ran fun a v hv => ?_
  obtain ⟨hend, -⟩ := h.storeUp hd hcr hdst c n a v hv
  rw [toNat_utop] at hend
  refine h.stores_follow hd hcr ht (fun k => dst + BitVec.ofNat 32 k) c fun k hk => ?_
  rw [pdx_eq, BitVec.toNat_add, BitVec.toNat_ofNat]
  omega

theorem memcpy_follows (h : Loading m s t L fl efl d) (hd : d ∈ L.dirs) (hcr : s.cr3 = d)
    (ht : InStep s₁ s₂ L t t') {off len : Word} (hdst : dst.toNat ≤ utop.toNat)
    (hback : b.start + off < dst → dst.toNat + len.toNat ≤ utop.toNat) :
    Follows (Jos.memcpy dst b off len) (Jos.memcpy dst b off len) t t' fun _ u u' =>
      Loading m s u L fl efl d ∧ InStep s₁ s₂ L u u' := by
  unfold Jos.memcpy
  dsimp only
  split
  · rename_i hover
    have hend := hback hover.1
    rw [toNat_utop] at hend
    refine h.stores_follow hd hcr ht (fun k => dst + BitVec.ofNat 32 (len.toNat - 1 - k)) _ fun k hk => ?_
    rw [pdx_eq, BitVec.toNat_add, BitVec.toNat_ofNat]
    omega
  · exact h.storeUp_follows hd hcr ht hdst _ _

/-- One program header, in both runs. -/
theorem segment_follows (h : Loading m s t L fl efl d) (hd : d ∈ L.dirs) (hcr : s.cr3 = d)
    (he : (s.envs e).envPgdir = some d) (hph : ph.pType = elfProgLoad → ph.BelowUtop b)
    (ht : InStep s₁ s₂ L t t') :
    Follows (loadSegment e b ph) (loadSegment e b ph) t t' fun _ u u' =>
      (∃ fl', Loading m s u L fl' efl d) ∧ InStep s₁ s₂ L u u' := by
  by_cases hload : ph.pType = elfProgLoad
  · obtain ⟨hmem, hfile⟩ := hph hload
    have het : (t.envs e).envPgdir = some d := by rw [h.paging, ← he]
    have hrange : pgnum ph.pVa + (ph.pMemsz.toNat + 4095) / 4096 ≤ 955 * 1024 := by
      rw [toNat_utop] at hmem
      rw [pgnum_eq]
      omega
    unfold loadSegment
    rw [if_pos hload]
    refine Follows.bind (regionAlloc_follows ht h.system het hd hmem) ?_
    rintro ⟨⟩ t₁ t₁' ⟨ht₁, fl₁, hr⟩
    have h₁ := h.region hd hrange hr
    have hcopy := h₁.memcpy_follows hd hcr ht₁ (b := b) (by omega) hfile
    refine Follows.bind (hcopy.and_ensures (h₁.memcpy hd hcr (by omega) hfile)) ?_
    rintro ⟨⟩ t₂ t₂' ⟨⟨hend, -⟩, h₂, ht₂⟩
    rw [toNat_utop] at hend
    have hva : (ph.pVa + ph.pFilesz).toNat = ph.pVa.toNat + ph.pFilesz.toNat := by
      rw [BitVec.toNat_add]
      omega
    refine (h₂.storeUp_follows hd hcr ht₂ (by rw [hva, toNat_utop]; exact hend) (fun _ => 0#8) _).mono ?_
    rintro ⟨⟩ u u' ⟨hu, huu⟩
    exact ⟨⟨fl₁, hu⟩, huu⟩
  · unfold loadSegment
    rw [if_neg hload]
    exact Follows.of_ok rfl rfl ⟨⟨fl, h⟩, ht⟩

end Loading

/-- load_icode, in both runs. -/
theorem System.loadIcode_follows (h : System m s L fl efl) (hl : Live s e)
    (hd : (s.envs e).envPgdir = some d) (hsole : Sole s d) (hb : b.BelowUtop)
    (hs : InStep s₁ s₂ L s s') :
    Follows (Jos.loadIcode e b) (Jos.loadIcode e b) s s' fun _ => InStep s₁ s₂ L := by
  have hdm := h.env_mem hl hd
  have hd' : (s'.envs e).envPgdir = some d := (hs.envs.pgdir e).trans hd
  have hstart : Loading m (s.loadCr3 d) (s.loadCr3 d) L fl efl d :=
    ⟨h.loadCr3 d, Kernel.Paging.refl _, Remaps.of_mem rfl, hsole⟩
  unfold Jos.loadIcode
  refine Follows.step (envPgdirPa_ok hd) (envPgdirPa_ok hd') (Follows.step rfl rfl ?_)
  refine Follows.bind (follows_check (R := fun _ u u' => u = s.loadCr3 d ∧ u' = s'.loadCr3 d)
    fun _ => ⟨rfl, rfl⟩) ?_
  rintro ⟨⟩ _ _ ⟨rfl, rfl⟩
  have hloop : Follows (forRange (fun k => loadSegment e b (b.proghdr k)) b.rounds)
      (forRange (fun k => loadSegment e b (b.proghdr k)) b.rounds) (s.loadCr3 d) (s'.loadCr3 d)
      fun _ u u' => (∃ fl', Loading m (s.loadCr3 d) u L fl' efl d) ∧ InStep s₁ s₂ L u u' :=
    forRange_follows
      (I := fun _ u u' => (∃ fl', Loading m (s.loadCr3 d) u L fl' efl d) ∧ InStep s₁ s₂ L u u')
      ⟨⟨fl, hstart⟩, hs.loadCr3 d⟩
      (fun k hk u u' ⟨⟨fl', hu⟩, hi⟩ => hu.segment_follows hdm rfl hd (hb k hk) hi)
  refine Follows.bind hloop ?_
  rintro ⟨⟩ u u' ⟨⟨fl₁, hu⟩, hi⟩
  have henvs : u.envs = s.envs := by
    rw [hu.paging]
    rfl
  have hsysu := hu.system.loadCr3 u.kernPgdir
  have hiu := hi.loadCr3 u.kernPgdir
  refine Follows.step (read_apply u) (read_apply u') ?_
  rw [hi.rest.kernPgdir]
  refine Follows.step (update_apply _ u) (update_apply _ u') ?_
  have heu : ((u.loadCr3 u.kernPgdir).envs e).envPgdir = some d := by
    change (u.envs e).envPgdir = some d
    rw [henvs]
    exact hd
  refine Follows.bind (regionAlloc_follows hiu hsysu heu hdm (by decide)) ?_
  rintro ⟨⟩ v v' ⟨hv, fl₂, hr⟩
  have hlive : (v.envs e).envStatus ≠ .free := by
    have hve : v.envs = u.envs := by rw [hr.paging]; rfl
    rw [hve, henvs]
    exact hl.2
  have hsame : v'.envs e = v.envs e := (hv.envs e).2 hlive
  refine Follows.step (update_apply _ v) (update_apply _ v') (Follows.of_ok (update_apply _ _)
    (update_apply _ _) ?_)
  have hesp : { v'.envs e with envTf := { (v'.envs e).envTf with tfEsp := ustacktop } } =
      { v.envs e with envTf := { (v.envs e).envTf with tfEsp := ustacktop } } := by rw [hsame]
  refine (hv.setEnv hesp e).setEnv ?_ e
  simp only [Kernel.setEnv, Function.update_self, hsame]

end loading

instance (ph : Proghdr) (v : Nat) : Decidable (ph.Maps v) := inferInstanceAs (Decidable (_ ∧ _))

/-- The byte the first `n` program headers leave at `va`. A segment that maps a page again takes
away what was there. -/
def Binary.loaded (b : Binary) : Nat → Word → Option Byte
  | 0, _ => none
  | n + 1, va =>
    if (b.proghdr n).pType = elfProgLoad then
      (segmentBytes b (b.proghdr n) va).or
        (if (b.proghdr n).Maps (pgnum va) then none else b.loaded n va)
    else
      b.loaded n va

/-- The byte load_icode leaves at `va`, if it stores one. The stack page comes last. -/
def Binary.imageByte (b : Binary) (va : Word) : Option Byte :=
  if pgnum va = stackVpn then none else b.loaded b.rounds va

/-- The first `n` program headers have been loaded into an empty address space, from the pages
`fl₀` that were free. -/
structure Loaded (b : Binary) (n : Nat) (fl₀ fl : List Nat) (d : Nat) (t : Kernel) : Prop where
  bytes : ∀ va, pdx va < 955 → ∀ c, b.loaded n va = some c → t.byteAt d va = some c
  pages : ∀ v < 955 * 1024, ∀ p, target (t.entry d v) = some p → p ∈ fl₀
  free : ∀ p ∈ fl, p ∈ fl₀

section image

variable {m : Machine} {s t t₁ u : Kernel} {L : Ledger} {fl fl₀ fl₁ efl : List Nat} {d e n p v : Nat}
  {va : Word} {b : Binary} {ph : Proghdr} {c : Byte}

/-- Pages come from the free list, or from the range itself. -/
theorem RegionMapped.pages (h : RegionMapped s t L fl fl₁ d v n) (hb : Balanced s L fl) (hd : d ∈ L.dirs)
    (hv : v + n ≤ 955 * 1024)
    (hpages : ∀ x < 955 * 1024, ∀ p, target (s.entry d x) = some p → p ∈ fl₀)
    (hfree : ∀ p ∈ fl, p ∈ fl₀) :
    (∀ x < 955 * 1024, ∀ p, target (t.entry d x) = some p → p ∈ fl₀) ∧ ∀ p ∈ fl₁, p ∈ fl₀ := by
  constructor
  · intro x hx p hp
    by_cases hin : v ≤ x ∧ x < v + n
    · obtain ⟨q, hq, hentry, -, -, hfresh⟩ := h.entries (x - v) (by omega)
      rw [show v + (x - v) = x by omega] at hentry
      have htarget : target (userEntry q) = some q :=
        target_entry (hb.page_lt hq) (by decide) (by decide)
      rw [hentry, htarget] at hp
      obtain rfl : q = p := Option.some.inj hp
      rcases hfresh with hf | ⟨j, hj, hold⟩
      · exact hfree q hf
      · exact hpages _ (by omega) q hold
    · rw [h.remaps.entry hb hd hx fun _ => hin] at hp
      exact hpages x hx p hp
  · intro p hp
    rcases h.free p hp with hf | ⟨k, hk, hold⟩
    · exact hfree p hf
    · exact hpages _ (by omega) p hold

/-- One program header more. -/
theorem Loaded.step (h : Loaded b n fl₀ fl d t) (hl : Loading m s t L fl efl d) (hd : d ∈ L.dirs)
    (hcr : s.cr3 = d) (he : (s.envs e).envPgdir = some d)
    (hph : (b.proghdr n).pType = elfProgLoad → (b.proghdr n).BelowUtop b) :
    Ensures (loadSegment e b (b.proghdr n)) t fun _ u =>
      ∃ fl', Loading m s u L fl' efl d ∧ Loaded b (n + 1) fl₀ fl' d u := by
  have hbal := hl.system.balanced
  have hown := hbal.own_user d hd
  by_cases hload : (b.proghdr n).pType = elfProgLoad
  · refine (hl.segment hd hcr he (hph hload) hload).mono ?_
    rintro ⟨⟩ u ⟨t₁, fl₁, hr, hw, hu, -⟩
    have hrange : pgnum (b.proghdr n).pVa + ((b.proghdr n).pMemsz.toNat + 4095) / 4096 ≤ 955 * 1024 := by
      have hlt := (hph hload).1
      rw [toNat_utop] at hlt
      rw [pgnum_eq]
      omega
    obtain ⟨hpages, hfree⟩ := hr.pages hbal hd hrange h.pages h.free
    refine ⟨fl₁, hu, ?_, ?_, hfree⟩
    · intro va hva c hc
      rw [Binary.loaded, if_pos hload] at hc
      rw [hw.bytes va hva]
      cases hseg : segmentBytes b (b.proghdr n) va with
      | some c' =>
        rw [hseg, Option.some_or] at hc
        rw [Option.some_or]
        exact hc
      | none =>
        rw [hseg, Option.none_or] at hc
        rw [Option.none_or]
        by_cases hmaps : (b.proghdr n).Maps (pgnum va)
        · rw [if_pos hmaps] at hc
          cases hc
        · rw [if_neg hmaps] at hc
          rw [(hl.system.byteAt_remaps hr.remaps hd hd hva fun _ => hmaps).2]
          exact h.bytes va hva c hc
    · intro v hv p hp
      rw [hw.entry hd hown hv] at hp
      exact hpages v hv p hp
  · intro _ u hu
    rw [loadSegment, if_neg hload] at hu
    obtain ⟨-, rfl⟩ := pure_eq_ok.mp hu
    refine ⟨fl, hl, ?_, h.pages, h.free⟩
    intro va hva c hc
    rw [Binary.loaded, if_neg hload] at hc
    exact h.bytes va hva c hc

/-- load_icode in an empty address space: the bytes of the image, in pages that were free. -/
theorem System.loadIcode_fresh (h : System m s L fl efl) (hl : Live s e)
    (hd : (s.envs e).envPgdir = some d) (hempty : ∀ v < 955 * 1024, s.entry d v = 0#32)
    (hb : b.BelowUtop) (hfree : ∀ p ∈ fl, p ∈ fl₀) (hrun : Jos.loadIcode e b s = .ok () t) :
    (∀ va, pdx va < 955 → ∀ c, b.imageByte va = some c → t.byteAt d va = some c) ∧
      ∀ v < 955 * 1024, ∀ p, target (t.entry d v) = some p → p ∈ fl₀ := by
  have hdm := h.env_mem hl hd
  have hnone : ∀ v < 955 * 1024, ∀ p, target (s.entry d v) ≠ some p := by
    intro v hv p hp
    rw [hempty v hv, target_zero] at hp
    cases hp
  obtain ⟨u, v, hloop, hstack, -, rfl⟩ := loadIcode_eq_ok hd hrun
  have hstart : Loading m (s.loadCr3 d) (s.loadCr3 d) L fl efl d :=
    ⟨h.loadCr3 d, Kernel.Paging.refl _, Remaps.of_mem rfl, fun v hv p hp => absurd hp (hnone v hv p)⟩
  have hloaded : Loaded b 0 fl₀ fl d (s.loadCr3 d) := by
    refine ⟨?_, fun v hv p hp => absurd hp (hnone v hv p), hfree⟩
    intro va _ c hc
    cases hc
  obtain ⟨fl₁, hu, hi⟩ := forRange_ensures
    (I := fun k u => ∃ fl', Loading m (s.loadCr3 d) u L fl' efl d ∧ Loaded b k fl₀ fl' d u)
    ⟨fl, hstart, hloaded⟩
    (fun k hk u ⟨fl', hu, hi⟩ => hi.step hu hdm rfl hd (hb k hk)) () u hloop
  obtain ⟨fl₂, hr, hv, -, -⟩ := hu.stack hdm hd hstack
  have hsysu := hu.system.loadCr3 u.kernPgdir
  obtain ⟨hpages, -⟩ := hr.pages hsysu.balanced hdm (by decide) hi.pages hi.free
  refine ⟨?_, hpages⟩
  intro va hva c hc
  unfold Binary.imageByte at hc
  by_cases hpage : pgnum va = stackVpn
  · rw [if_pos hpage] at hc
    cases hc
  · rw [if_neg hpage] at hc
    have hkeep := hsysu.byteAt_remaps hr.remaps hdm hdm hva fun _ hin => hpage (by omega)
    have hbyte := hi.bytes va hva c hc
    exact hkeep.2.trans hbyte

end image

/-- What env_create of `b` shows its environment `e` in two runs: the same registers, the same
pages, all of them free before, and in these the bytes of the image or the same other byte, except
where either run shows what its page held before. -/
structure SameSpace (b : Binary) (s₁ s₂ t₁ t₂ : Kernel) (e d : Nat) : Prop where
  env : t₂.envs e = t₁.envs e
  walk : ∀ va < utop, hwWalk t₂.mem d va = hwWalk t₁.mem d va
  fresh : ∀ va < utop, ∀ x, hwWalk t₁.mem d va = some x → s₁.OnFreeList x.page
  image : ∀ va < utop, ∀ c, b.imageByte va = some c →
    t₁.byteAt d va = some c ∧ t₂.byteAt d va = some c
  bytes : ∀ va < utop, ∀ x, hwWalk t₁.mem d va = some x → t₂.byteAt d va = t₁.byteAt d va ∨
    (t₁.byteAt d va = some (s₁.pageByte x.page (pgoff va)) ∧
      t₂.byteAt d va = some (s₂.pageByte x.page (pgoff va)))

section creation

variable {m : Machine} {mem : Nat → Nat → Word} {s s₁ s₂ t t₁ t₂ : Kernel} {L : Ledger}
  {fl efl : List Nat} {d e p : Nat} {va : Word} {b : Binary} {type : EnvType}

/-- env_create of the same image in two states that differ in free pages and saved registers only. -/
theorem sysRun_envCreate_sameSpace (h : SysRun m mem s₁) (hs : SameButFree s₁ s₂) (hb : b.BelowUtop)
    (hrun : envCreate b type s₁ = .ok () t₁) : ∃ t₂ e d, envCreate b type s₂ = .ok () t₂ ∧
      s₁.envFreeList = some e ∧ Live t₁ e ∧ (t₁.envs e).envPgdir = some d ∧
      SameSpace b s₁ s₂ t₁ t₂ e d := by
  obtain ⟨L, fl, efl, hsys⟩ := h.system
  have hstart := hs.inStep hsys
  have hsys₂ := hsys.inStep hstart
  obtain ⟨e, efl', p, fl', u, rfl, rfl, hu, hsysu, hl, hd, hempty, hload⟩ := envCreate_eq_ok hsys hrun
  have hrec : { newEnv (s₂.envs e) e p 0 with envType := type } =
      { newEnv (s₁.envs e) e p 0 with envType := type } := by
    rw [(hs.envs e).1]
    rfl
  have hstep := (hstart.allocated hsys e 0).setEnv hrec e
  rw [← hu] at hstep
  have hsole : Sole u p := Sole.of_empty hempty
  obtain ⟨t₂, hload₂, ht⟩ := hsysu.loadIcode_follows hl hd hsole hb hstep () t₁ hload
  have hfree : ∀ q ∈ fl', q ∈ p :: fl' := fun q hq => List.mem_cons_of_mem p hq
  obtain ⟨hbytes, hpages⟩ := hsysu.loadIcode_fresh hl hd hempty hb hfree hload
  -- the second run is one of its own, too
  have hsysu₂ := hsysu.inStep hstep
  have hrun₂ : envCreate b type s₂ = .ok () t₂ := hsys₂.envCreate_eq.trans hload₂
  obtain ⟨e', efl₂, p', fl₂, u', hcons, hcons', hu', -, hl₂, hd₂, hempty₂, hload₂'⟩ :=
    envCreate_eq_ok hsys₂ hrun₂
  cases hcons
  cases hcons'
  rw [← hu'] at hsysu₂
  obtain ⟨hbytes₂, -⟩ := hsysu₂.loadIcode_fresh hl₂ hd₂ hempty₂ hb hfree hload₂'
  obtain ⟨fl₃, hsyst, -⟩ := hsysu.loadIcode hl hd hsole hb () t₁ hload
  have hset := (loadIcode_effect hload).envs
  have hlive : Live t₁ e ∧ (t₁.envs e).envPgdir = some p := by
    rw [Live, hset, Function.update_self]
    exact ⟨hl, hd⟩
  have hpdx : ∀ va < utop, pdx va < 955 := fun va hva => (lt_utop_iff va).mp hva
  have hdm : p ∈ (L.addDir p).dirs := Ledger.mem_dirs_addDir.mpr (Or.inl rfl)
  have hwalk : ∀ va < utop, hwWalk t₂.mem p va = hwWalk t₁.mem p va := fun va hva =>
    ht.walk hdm (hsyst.balanced.own_user p hdm _ (hpdx va hva))
  refine ⟨t₂, e, p, hrun₂, hsys.envs.chain.head_eq, hlive.1, hlive.2,
    (ht.envs e).2 hlive.1.2, hwalk, ?_, ?_, ?_⟩
  · intro va hva x hx
    have hpage := (hwWalk_eq_some.mp hx).1
    rw [← System.entry_pgnum] at hpage
    exact hsys.balanced.onFreeList_iff.mpr
      (hpages _ (System.pgnum_lt_utop (hpdx va hva)) x.page hpage)
  · intro va hva c hc
    exact ⟨hbytes va (hpdx va hva) c hc, hbytes₂ va (hpdx va hva) c hc⟩
  · intro va hva x hx
    unfold Kernel.byteAt
    rw [hwalk va hva, hx, Option.map_some, Option.map_some]
    rcases ht.bytes x.page (pgoff va) with hsame | ⟨-, h1, h2⟩
    · exact Or.inl (congrArg some hsame)
    · exact Or.inr ⟨congrArg some h1, congrArg some h2⟩

/-- env_create gets to its end when load_icode has the memory it needs. -/
theorem System.envCreate_returns (h : System m s L (p :: fl) (e :: efl)) (hb : b.Apart)
    (hmagic : b.eMagic = elfMagic)
    (hup : ∀ k, b.Loads k → RoundsUp (b.proghdr k).pVa (b.proghdr k).pMemsz)
    (hfree : b.pagesFor b.ePhnum.toNat + 2 ≤ fl.length) (type : EnvType) :
    ∃ t, Jos.envCreate b type s = .ok () t := by
  obtain ⟨hsys, hl, hd, hempty⟩ := h.created type rfl
  obtain ⟨⟨⟩, t, ht, -⟩ := hsys.loadIcode_returns hl hd (Sole.of_empty hempty) hb hmagic hup hfree
  exact ⟨t, h.envCreate_eq.trans ht⟩

/-- region_alloc maps the head of the free list, and leaves in it what it held. -/
theorem regionPage_mem {va : Word} (h : Balanced s L (p :: fl)) (he : (s.envs e).envPgdir = some d)
    (hd : d ∈ L.dirs) (hva : pdx va < 955) (hrun : regionPage e va s = .ok () t) :
    t.pte d (pdx va) (ptx va) = userEntry p ∧ t.mem p = s.mem p := by
  rcases regionPage_eq h he hd hva with ⟨-, -, hno⟩ | ⟨p', fl₀, q, v, fl₁, hcons, hready, hok⟩
  · exact absurd hrun (hno t)
  · cases hcons
    rw [hok] at hrun
    cases hrun
    have hd' : d ∈ (L.loosen p).dirs := hd
    have hpd : p ≠ d := by
      rintro rfl
      exact h.free_dir (by simp) hd
    have hpf : p ∉ fl := (List.nodup_cons.mp h.nodup).1
    refine ⟨hready.mapAt_entry _ h.take hd' hva (h.page_lt (h.free_lt (by simp))), ?_⟩
    have hpq : p ≠ q ∧ v.mem p = s.mem p := by
      rcases hready with ⟨ht, rfl, -⟩ | ⟨-, rfl, rfl⟩
      · refine ⟨?_, rfl⟩
        rintro rfl
        exact (h.referenced_table hd (h.own_user d hd _ hva) ht).2.1 (by simp)
      · have hpq : p ≠ q := by
          rintro rfl
          exact hpf (by simp)
        refine ⟨hpq, ?_⟩
        funext k
        rw [Kernel.mem_withTable, if_neg fun hc => hpd hc.1, if_neg fun hc => hpq hc.1]
        rfl
    funext k
    rw [Kernel.mem_mapAt, if_neg fun hc => hpq.1 hc.1, hpq.2]

/-- The stack of an environment without segments is the next free page, as it is. -/
theorem System.envCreate_stack {q : Nat} (h : System m s L (p :: q :: fl) (e :: efl))
    (hb : b.rounds = 0) (hrun : Jos.envCreate b type s = .ok () t) :
    hwWalk t.mem p (ustacktop - pgsize) = some ⟨q, true, true⟩ ∧
      t.byteAt p (ustacktop - pgsize) = some (s.pageByte q 0) := by
  obtain ⟨hsys, hl, hd, hempty⟩ := h.created type rfl
  have hmemq : (((s.setupVm e p).fillSlot e 0).setEnv e
      { newEnv (s.envs e) e p 0 with envType := type }).mem q = s.mem q := by
    have hne : p ≠ s.kernPgdir := by
      rintro rfl
      exact h.balanced.free_dir (by simp) h.mem_kern
    have hqp : q ≠ p := by
      rintro rfl
      exact (List.nodup_cons.mp h.balanced.nodup).1 (by simp)
    funext k
    change (s.setupVm e p).mem q k = _
    rw [mem_setupVm hne, if_neg fun hc => hqp hc.1]
  rw [h.envCreate_eq] at hrun
  generalize ((s.setupVm e p).fillSlot e 0).setEnv e { newEnv (s.envs e) e p 0 with envType := type } = u
    at hsys hl hd hempty hmemq hrun
  have hdm := hsys.env_mem hl hd
  have hsole : Sole u p := Sole.of_empty hempty
  have hbelow : b.BelowUtop := by
    intro k hk
    omega
  obtain ⟨fl₁, hsyst, -⟩ := hsys.loadIcode hl hd hsole hbelow () t hrun
  obtain ⟨u', v, hloop, hstack, -, rfl⟩ := loadIcode_eq_ok hd hrun
  rw [hb] at hloop
  obtain ⟨-, rfl⟩ := pure_eq_ok.mp hloop
  have hone : (pgsize.toNat + 4095) / 4096 = 1 := by decide
  have hva : page2pa (pgnum (ustacktop - pgsize)) + BitVec.ofNat 32 0 * pgsize = ustacktop - pgsize := by
    decide
  rw [regionAlloc, regionRounds (by decide), hone, roundDown_eq] at hstack
  obtain ⟨_, w, hnil, hpage⟩ := bind_eq_ok.mp hstack
  obtain ⟨-, rfl⟩ := pure_eq_ok.mp hnil
  change regionPage e (page2pa (pgnum (ustacktop - pgsize)) + BitVec.ofNat 32 0 * pgsize) _ = _ at hpage
  rw [hva] at hpage
  have hcr := (hsys.loadCr3 p).loadCr3 (u.loadCr3 p).kernPgdir
  obtain ⟨hentry, hmem⟩ := regionPage_mem hcr.balanced hd hdm (by decide) hpage
  have hq := h.balanced.page_lt (h.balanced.free_lt (p := q) (by simp))
  have hlow : pdx (ustacktop - pgsize) < 955 := by decide
  have hwalk := hsyst.userEntry_walk hdm hlow hq (by rw [System.entry_pgnum]; exact hentry)
  refine ⟨hwalk, ?_⟩
  unfold Kernel.byteAt
  rw [hwalk, Option.map_some, show pgoff (ustacktop - pgsize) = 0 by decide]
  change some (v.pageByte q 0) = _
  rw [Kernel.pageByte, Kernel.pageByte, hmem]
  change some (getByte (u.mem q 0) 0) = _
  rw [hmemq]

/-- `s` with every word of the pages `fl` inverted. -/
def Kernel.scramble (s : Kernel) (fl : List Nat) : Kernel :=
  { s with mem := fun q j => if q ∈ fl then ~~~ s.mem q j else s.mem q j }

theorem Balanced.scramble (h : Balanced s L fl) : SameButFree s (s.scramble fl) where
  rest := rfl
  envs := fun _ => ⟨rfl, fun _ => rfl⟩
  mem := by
    intro q hq
    have hf : q ∉ fl := fun hm => hq (h.onFreeList_iff.mpr hm)
    funext j
    exact if_neg hf

/-- An image without program headers. -/
def bareImage : Binary where
  start := 0xF0120000#32
  bytes off := [0x7F, 0x45, 0x4C, 0x46].getD off.toNat 0

theorem bareImage_apart : bareImage.Apart := by
  have hn : bareImage.ePhnum.toNat = 0 := by decide
  have hnone : ∀ k, ¬ bareImage.Loads k := fun k hk => absurd hk.1 (by omega)
  exact ⟨by decide, fun k hk => absurd hk (hnone k), fun k hk => absurd hk (hnone k),
    fun k _ _ hk => absurd hk (hnone k)⟩

/-- On the small machine, an environment without segments: it has its initial stack. -/
theorem bareEnv_smallMachine : ∃ s₀ s t e d, memInit smallMachine (bss fun _ _ => 0) = .ok () s₀ ∧
    envInit s₀ = .ok () s ∧ bareImage.BelowUtop ∧ envCreate bareImage .user s = .ok () t ∧ Live t e ∧
    (t.envs e).envPgdir = some d ∧
    ∀ va, ustacktop - pgsize ≤ va → va < ustacktop → UserCanWrite t.mem d va := by
  obtain ⟨s₀, s, fl, efl, h₀, h₁, hsys, hlen, hslots⟩ := start_smallMachine
  have hslot := hslots 0 (by decide)
  cases efl with
  | nil => cases hslot
  | cons e efl =>
    cases fl with
    | nil => simp at hlen
    | cons p fl =>
      have hn : bareImage.ePhnum.toNat = 0 := by decide
      have hup : ∀ k, bareImage.Loads k →
          RoundsUp (bareImage.proghdr k).pVa (bareImage.proghdr k).pMemsz :=
        fun k hk => absurd hk.1 (by omega)
      have hpages : bareImage.pagesFor bareImage.ePhnum.toNat = 0 := by decide
      have hroom : bareImage.pagesFor bareImage.ePhnum.toNat + 2 ≤ fl.length := by
        rw [hpages]
        rw [List.length_cons] at hlen
        omega
      obtain ⟨t, ht⟩ := hsys.envCreate_returns bareImage_apart (by decide) hup hroom .user
      have hbelow : bareImage.BelowUtop := by
        have hrounds : bareImage.rounds = 0 := by decide
        intro k hk
        omega
      obtain ⟨e', efl', p', fl', u, -, -, -, hsysu, hl, hd, hempty, hload⟩ := envCreate_eq_ok hsys ht
      have himage := hsysu.loadIcode_image hl hd (Sole.of_empty hempty) bareImage_apart hload
      refine ⟨s₀, s, t, e', p', h₀, h₁, hbelow, ht, ?_, ?_, himage.stack⟩
      · rw [Live, himage.envs, Function.update_self]
        exact hl
      · rw [himage.envs, Function.update_self]
        exact hd

theorem getByte_not (w : Word) : getByte (~~~ w) 0 ≠ getByte w 0 := by
  intro h
  have hbit := congrArg (fun b : Byte => b.getLsbD 0) h
  simp [getByte] at hbit

/-- With other bytes in the free pages, the stack page of a new environment shows them. -/
theorem not_envCreate_sameBytes : ¬ ∀ (m : Machine) (mem : Nat → Nat → Word) (s₁ s₂ t₁ t₂ : Kernel)
    (b : Binary) (type : EnvType) (e d : Nat) (va : Word), SysRun m mem s₁ → SameButFree s₁ s₂ →
    b.BelowUtop → envCreate b type s₁ = .ok () t₁ → envCreate b type s₂ = .ok () t₂ →
    s₁.envFreeList = some e → (t₁.envs e).envPgdir = some d → va < utop →
    UserCanRead t₁.mem d va → t₂.byteAt d va = t₁.byteAt d va := by
  intro hall
  obtain ⟨s₀, s, fl, efl, h₀, h₁, hsys, hlen, hslots⟩ := start_smallMachine
  have hslot := hslots 0 (by decide)
  cases efl with
  | nil => cases hslot
  | cons e efl =>
    match fl, hlen with
    | p :: q :: fl, hlen =>
      have hpages : bareImage.pagesFor bareImage.ePhnum.toNat = 0 := by decide
      have hup : ∀ k, bareImage.Loads k →
          RoundsUp (bareImage.proghdr k).pVa (bareImage.proghdr k).pMemsz := by
        intro k hk
        have hn : bareImage.ePhnum.toNat = 0 := by decide
        exact absurd hk.1 (by omega)
      have hrounds : bareImage.rounds = 0 := by decide
      have hscr := hsys.balanced.scramble
      have hsys₂ := hsys.inStep (hscr.inStep hsys)
      have hroom : bareImage.pagesFor bareImage.ePhnum.toNat + 2 ≤ (q :: fl).length := by
        rw [hpages]
        simp only [List.length_cons] at hlen ⊢
        omega
      obtain ⟨t₁, ht₁⟩ := hsys.envCreate_returns bareImage_apart (by decide) hup hroom .user
      obtain ⟨t₂, ht₂⟩ := hsys₂.envCreate_returns bareImage_apart (by decide) hup hroom .user
      obtain ⟨hwalk, hbyte⟩ := hsys.envCreate_stack hrounds ht₁
      obtain ⟨-, hbyte₂⟩ := hsys₂.envCreate_stack hrounds ht₂
      have hbelow : bareImage.BelowUtop := by
        intro k hk
        omega
      have hdir : (t₁.envs e).envPgdir = some p := by
        have hrun := ht₁
        rw [hsys.envCreate_eq] at hrun
        have hset := (loadIcode_effect hrun).envs
        rw [hset, Function.update_self]
        simp [Kernel.setEnv, newEnv]
      have hsame := hall _ _ _ _ t₁ t₂ bareImage .user e p _ (.start h₀ h₁) hscr hbelow ht₁ ht₂
        hsys.envs.chain.head_eq hdir (show ustacktop - pgsize < utop by decide) ⟨_, hwalk, rfl⟩
      rw [hbyte, hbyte₂] at hsame
      have hbytes := Option.some.inj hsame
      unfold Kernel.pageByte Kernel.scramble at hbytes
      simp only [List.mem_cons, true_or, or_true, if_true] at hbytes
      exact getByte_not _ hbytes

/-- On the small machine, with every free page inverted. -/
theorem sysRun_envCreate_sameSpace_smallMachine : ∃ s₁ s₂ t₁ t₂ e d,
    SysRun smallMachine (fun _ _ => 0) s₁ ∧ SameButFree s₁ s₂ ∧ s₂.mem ≠ s₁.mem ∧
    envCreate tinyImage .user s₁ = .ok () t₁ ∧ envCreate tinyImage .user s₂ = .ok () t₂ ∧
    SameSpace tinyImage s₁ s₂ t₁ t₂ e d := by
  obtain ⟨s₀, s, fl, efl, h₀, h₁, hsys, hlen, hslots⟩ := start_smallMachine
  have hslot := hslots 0 (by decide)
  cases efl with
  | nil => cases hslot
  | cons e efl =>
    match fl, hlen with
    | p :: fl, hlen =>
      have hpages : tinyImage.pagesFor tinyImage.ePhnum.toNat = 2 := by decide
      have hup : ∀ k, tinyImage.Loads k →
          RoundsUp (tinyImage.proghdr k).pVa (tinyImage.proghdr k).pMemsz := by
        intro k hk
        rw [tinyImage_loads hk, tinyImage_proghdr]
        decide
      have hroom : tinyImage.pagesFor tinyImage.ePhnum.toNat + 2 ≤ fl.length := by
        rw [hpages]
        simp only [List.length_cons] at hlen
        omega
      obtain ⟨t₁, ht₁⟩ := hsys.envCreate_returns tinyImage_apart (by decide) hup hroom .user
      have hbelow : tinyImage.BelowUtop := by
        intro k hk hload
        rw [tinyImage_apart.rounds] at hk
        exact tinyImage_apart.belowUtop ⟨hk, hload⟩
      have hscr := hsys.balanced.scramble
      obtain ⟨t₂, e', d, ht₂, -, -, -, hspace⟩ :=
        sysRun_envCreate_sameSpace (.start h₀ h₁) hscr hbelow ht₁
      refine ⟨s, _, t₁, t₂, e', d, .start h₀ h₁, hscr, ?_, ht₁, ht₂, hspace⟩
      intro hmem
      have hword := congrFun (congrFun hmem p) 0
      unfold Kernel.scramble at hword
      simp only [List.mem_cons, true_or, if_true] at hword
      exact getByte_not _ (congrArg (getByte · 0) hword)

end creation

end Jos
