import Jos.Kern.UserStabs

/-! When debuginfo_eip reads only what the user may read, and gives up where it should. -/
namespace Jos

open Prog

variable {s : Kernel} {e d m n off : Nat} {va addr : Word} {u : UserStabData} {a : Access}
  {may : Access → Word → Bool} {ptrdiff : Word → Word} {linked : SymTables LookupStop Kernel}

theorem AllAccepted.part (h : AllAccepted s va n) (hle : off + m ≤ n) :
    AllAccepted s (va + BitVec.ofNat 32 off) m := by
  intro k hk
  rw [BitVec.add_assoc, ← BitVec.ofNat_add]
  exact h _ (by omega)

/-- The record is read whole. -/
theorem InUser.userStabData_ok (h : InUser s e d) (hmay : ∀ b, s.accepts b = true → may .record b = true)
    (hrec : RecordAccessible s) : userStabData may s = .ok s.userStabData s := by
  have h0 : AllAccepted s ustabdata 4 := fun k hk => hrec k (by omega)
  have h4 : AllAccepted s (ustabdata + 4) 4 := AllAccepted.part hrec (by decide)
  have h8 : AllAccepted s (ustabdata + 8) 4 := AllAccepted.part hrec (by decide)
  have h12 : AllAccepted s (ustabdata + 12) 4 := AllAccepted.part hrec (by decide)
  rw [Jos.userStabData, bind_ok (h.lookBits_ok hmay h0), bind_ok (h.lookBits_ok hmay h4),
    bind_ok (h.lookBits_ok hmay h8), bind_ok (h.lookBits_ok hmay h12)]
  rfl

theorem lookBits_first (hmay : may a va = false) :
    lookBits may a (n + 1) va s = .stop (.refused va) s := by
  rw [lookBits, bind_stop (lookByte_refused hmay)]

/-- A user address is looked up in the user's tables. -/
theorem InUser.lookup (h : InUser s e d) (haddr : addr < ulim)
    (hmay : ∀ b, s.accepts b = true → may .record b = true) (hrec : RecordAccessible s) :
    debuginfoEip linked ptrdiff may addr s =
      debuginfoTables (userTables may ptrdiff s.userStabData) addr s := by
  rw [debuginfoEip, if_neg (BitVec.not_le.mpr haddr), bind_ok (h.userStabData_ok hmay hrec)]

theorem lookup_refused (haddr : addr < ulim) (hmay : may .record ustabdata = false) :
    debuginfoEip linked ptrdiff may addr s = .stop (.refused ustabdata) s := by
  have hrec : userStabData may s = .stop (.refused ustabdata) s := by
    rw [userStabData, bind_stop (lookBits_first hmay)]
  rw [debuginfoEip, if_neg (BitVec.not_le.mpr haddr), bind_stop hrec]

/-! The tables, from their last character on. -/

theorem userTables_empty (hle : u.stabstrEnd ≤ u.stabstr) :
    debuginfoTables (userTables may ptrdiff u) addr s = .ok (-1, unknownInfo addr) s := by
  have hempty : (userTables may ptrdiff u).strEmpty = true := decide_eq_true hle
  rw [debuginfoTables, hempty, if_pos rfl]
  rfl

/-- The address of the last character. -/
theorem last_char (u : UserStabData) : u.stabstr + (u.stabstrEnd - u.stabstr - 1) = u.stabstrEnd - 1 := by
  bv_omega

theorem userTables_refused (hne : ¬ u.stabstrEnd ≤ u.stabstr) (hmay : may .table (u.stabstrEnd - 1) = false) :
    debuginfoTables (userTables may ptrdiff u) addr s = .stop (.refused (u.stabstrEnd - 1)) s := by
  have hchar : (userTables may ptrdiff u).char ((userTables may ptrdiff u).strSize - 1) s =
      .stop (.refused (u.stabstrEnd - 1)) s := by
    rw [← last_char u] at hmay ⊢
    exact lookByte_refused hmay
  have hempty : (userTables may ptrdiff u).strEmpty = false := decide_eq_false hne
  rw [debuginfoTables, hempty, if_neg Bool.false_ne_true, bind_stop hchar]

/-- A character of the string table. -/
theorem InUser.userTables_char (h : InUser s e d) (ht : TablesAccessible s u) {off : Word}
    (hoff : off < u.stabstrEnd - u.stabstr) :
    (userTables (fun _ => s.accepts) ptrdiff u).char off s = .ok (s.peek (u.stabstr + off)) s := by
  have hacc : s.accepts (u.stabstr + off) = true := by
    have hk := ht.strings off.toNat hoff
    rwa [BitVec.ofNat_toNat, BitVec.setWidth_eq] at hk
  change lookByte (fun _ => s.accepts) .table (u.stabstr + off) s = _
  exact lookByte_ok hacc (h.mapped hacc)

theorem InUser.userTables_last (h : InUser s e d) (ht : TablesAccessible s u)
    (hne : ¬ u.stabstrEnd ≤ u.stabstr) : (userTables (fun _ => s.accepts) ptrdiff u).char
      ((userTables (fun _ => s.accepts) ptrdiff u).strSize - 1) s = .ok (s.peek (u.stabstrEnd - 1)) s := by
  have hlt : u.stabstrEnd - u.stabstr - 1 < u.stabstrEnd - u.stabstr := by
    bv_omega
  rw [← last_char u]
  exact h.userTables_char ht hlt

/-- Without a NUL at its end the string table is not used. -/
theorem InUser.userTables_unterminated (h : InUser s e d) (ht : TablesAccessible s u)
    (hne : ¬ u.stabstrEnd ≤ u.stabstr) (hlast : s.peek (u.stabstrEnd - 1) ≠ 0) :
    debuginfoTables (userTables (fun _ => s.accepts) ptrdiff u) addr s = .ok (-1, unknownInfo addr) s := by
  have hempty : (userTables (fun _ => s.accepts) ptrdiff u).strEmpty = false := decide_eq_false hne
  rw [debuginfoTables, hempty, if_neg Bool.false_ne_true, bind_ok (h.userTables_last ht hne), if_pos hlast]
  rfl

/-- A field of a stab of the array. -/
theorem TablesAccessible.field (ht : TablesAccessible s u) {i : Int} (h0 : 0 ≤ i)
    (hi : 12 * (i + 1) ≤ (u.stabEnd - u.stabs).toNat) (φ : Field) : FieldAccessible s u (i, φ) := by
  obtain ⟨i, rfl⟩ := Int.eq_ofNat_of_zero_le h0
  have hfit : φ.offset + φ.size ≤ 12 := by
    cases φ <;> decide
  have haddr : fieldAddr u.stabs i φ = u.stabs + BitVec.ofNat 32 (12 * i + φ.offset) := by
    unfold fieldAddr
    rw [← BitVec.ofInt_natCast]
    rfl
  unfold FieldAccessible
  dsimp only
  rw [haddr]
  exact AllAccepted.part ht.stabs (by omega)

/-- The array is one whose pointers C can subtract. -/
def Countable (u : UserStabData) (n : Nat) : Prop :=
  (u.stabEnd - u.stabs).toNat = 12 * n ∧ 12 * n < 2 ^ 31

theorem Countable.count (hn : Countable u n) (hp : PtrDiff ptrdiff) :
    (userTables may ptrdiff u).count = n := by
  have hlen : u.stabEnd - u.stabs = BitVec.ofNat 32 (12 * n) := by
    rw [← hn.1, BitVec.ofNat_toNat, BitVec.setWidth_eq]
  have hlt := hn.2
  change (ptrdiff (u.stabEnd - u.stabs)).toInt = n
  rw [hlen, hp n hlt, BitVec.toInt_eq_toNat_cond, BitVec.toNat_ofNat]
  omega

/-- Accessible tables can be read, and end in a NUL where the last character is one. -/
theorem InUser.tablesReadable (h : InUser s e d) (ht : TablesAccessible s u)
    (hne : ¬ u.stabstrEnd ≤ u.stabstr) (hlast : s.peek (u.stabstrEnd - 1) = 0) (hn : Countable u n)
    (hp : PtrDiff ptrdiff) :
    TablesReadable (userTables (fun _ => s.accepts) ptrdiff u) s (s.stabAt u.stabs)
      fun i => s.peek (u.stabstr + BitVec.ofNat 32 i) where
  stabs := by
    intro i h0 hi
    rw [hn.count hp] at hi
    have hfield : ∀ φ, FieldAccessible s u (i, φ) := ht.field h0 (by have := hn.1; omega)
    have ha : Answers (userTables (fun _ => s.accepts) ptrdiff u) s _ _ _ := h.answers ptrdiff u
    exact ⟨ha.gives i .strx (hfield _), ha.gives i .type (hfield _), ha.gives i .desc (hfield _),
      ha.gives i .value (hfield _)⟩
  nonempty := by
    refine ⟨decide_eq_false hne, ?_⟩
    change 0 < u.stabstrEnd - u.stabstr
    bv_omega
  chars := by
    intro off hoff
    rw [BitVec.ofNat_toNat, BitVec.setWidth_eq]
    exact h.userTables_char ht hoff
  ends := by
    have haddr : u.stabstr + BitVec.ofNat 32 ((u.stabstrEnd - u.stabstr).toNat - 1) =
        u.stabstrEnd - 1 := by
      bv_omega
    change s.peek (u.stabstr + BitVec.ofNat 32 ((u.stabstrEnd - u.stabstr).toNat - 1)) = 0
    rw [haddr, hlast]

/-- The lookup in such tables demands its strays of the user. -/
theorem InUser.userTables_demands (h : InUser s e d) (ht : TablesAccessible s u)
    (hne : ¬ u.stabstrEnd ≤ u.stabstr) (hlast : s.peek (u.stabstrEnd - 1) = 0) (hn : Countable u n)
    (hp : PtrDiff ptrdiff) (addr : Word) :
    ∃ ds, (∀ p, p ∈ ds ↔ Strays (s.stabAt u.stabs) (n - 1) addr p) ∧
      Demands (FieldAccessible s u) IsRefused s ds
        (debuginfoTables (userTables (fun _ => s.accepts) ptrdiff u) addr) fun _ => True := by
  have hcount : (userTables (fun _ => s.accepts) ptrdiff u).count = n := hn.count hp
  rw [← hcount]
  exact debuginfoTables_demands (h.tablesReadable ht hne hlast hn hp) (h.answers ptrdiff u) (by omega) addr

/-! A stab array whose length C cannot count. -/

/-- The pointer difference C may give, with one value changed to `c`. -/
def ptrdiffAt (len c : Word) (w : Word) : Word :=
  if w = len then c else BitVec.ofNat 32 (w.toNat / 12)

theorem ptrDiff_ptrdiffAt {len c : Word} (hlen : ¬ ∃ n, len.toNat = 12 * n ∧ 12 * n < 2 ^ 31) :
    PtrDiff (ptrdiffAt len c) := by
  intro n hn
  have htoNat : (BitVec.ofNat 32 (12 * n)).toNat = 12 * n := by
    rw [BitVec.toNat_ofNat]
    omega
  have hne : BitVec.ofNat 32 (12 * n) ≠ len := by
    rintro rfl
    exact hlen ⟨n, htoNat, hn⟩
  rw [ptrdiffAt, if_neg hne, htoNat, Nat.mul_div_cancel_left n (by decide)]

/-- Going up from any address in steps of 12, one comes to the kernel. -/
theorem exists_kernel_stab (stabs : Word) : ∃ m : Nat, 2 * m + 1 < 2 ^ 31 ∧
    ulim ≤ fieldAddr stabs m .type ∧ fieldAddr stabs m .type ≠ 0xFFFFFFFF#32 := by
  have hlim := toNat_ulim
  have hbase := (stabs + 4).isLt
  obtain ⟨m, hm⟩ : ∃ m, m = (ulim.toNat + 2 ^ 32 - (stabs + 4).toNat + 11) / 12 := ⟨_, rfl⟩
  have haddr : fieldAddr stabs m .type = stabs + 4 + BitVec.ofNat 32 (12 * m) := by
    have hint : (12 * (m : Int) + (Field.type.offset : Nat)) = ((4 + 12 * m : Nat) : Int) := by
      rw [Nat.cast_add, Int.add_comm]
      rfl
    rw [fieldAddr, hint, BitVec.ofInt_natCast, BitVec.ofNat_add, ← BitVec.add_assoc]
    rfl
  have htoNat : (fieldAddr stabs m .type).toNat = (stabs + 4).toNat + 12 * m - 2 ^ 32 := by
    rw [haddr, BitVec.toNat_add (stabs + 4), BitVec.toNat_ofNat]
    omega
  refine ⟨m, by omega, ?_, ?_⟩
  · rw [BitVec.le_def, htoNat]
    omega
  · intro hmax
    have hall : (fieldAddr stabs m .type).toNat = 2 ^ 32 - 1 := by
      rw [hmax]
      rfl
    omega

/-- A difference C may give makes the lookup read kernel memory. -/
theorem InUser.userTables_uncountable (h : InUser s e d) (ht : TablesAccessible s u)
    (hne : ¬ u.stabstrEnd ≤ u.stabstr) (hlast : s.peek (u.stabstrEnd - 1) = 0)
    (hn : ¬ ∃ n, Countable u n) : ∃ ptrdiff, PtrDiff ptrdiff ∧ ∃ va,
      debuginfoTables (userTables (fun _ => s.accepts) ptrdiff u) addr s = .stop (.refused va) s := by
  obtain ⟨m, hm, hlim, hmax⟩ := exists_kernel_stab u.stabs
  obtain ⟨ptrdiff, hptr⟩ : ∃ p, p = ptrdiffAt (u.stabEnd - u.stabs) (BitVec.ofNat 32 (2 * m + 1)) :=
    ⟨_, rfl⟩
  refine ⟨ptrdiff, hptr ▸ ptrDiff_ptrdiffAt hn, fieldAddr u.stabs m .type, ?_⟩
  have hcount : (userTables (fun _ => s.accepts) ptrdiff u).count = 2 * m + 1 := by
    change (ptrdiff (u.stabEnd - u.stabs)).toInt = 2 * m + 1
    rw [hptr, ptrdiffAt, if_pos rfl, BitVec.toInt_eq_toNat_cond, BitVec.toNat_ofNat]
    omega
  have hprobe : (0 + ((2 * m + 1 : Int) - 1)).tdiv 2 = m := by
    rw [Int.zero_add, Int.add_sub_cancel, Int.mul_tdiv_cancel_left _ (by decide)]
  have htype : (userTables (fun _ => s.accepts) ptrdiff u).nType m s =
      .stop (.refused (fieldAddr u.stabs m .type)) s := by
    change lookBits (fun _ => s.accepts) .table (0 + 1) (fieldAddr u.stabs m .type) s = _
    exact lookBits_first (h.not_accepts hlim hmax)
  have hsearch : stabBinsearch (userTables (fun _ => s.accepts) ptrdiff u) 0
      ((userTables (fun _ => s.accepts) ptrdiff u).count - 1) nSo addr s =
        .stop (.refused (fieldAddr u.stabs m .type)) s := by
    rw [hcount]
    exact stabBinsearch_stop (by omega) (by rw [hprobe]; exact htype)
  have hempty : (userTables (fun _ => s.accepts) ptrdiff u).strEmpty = false := decide_eq_false hne
  rw [debuginfoTables, hempty, if_neg Bool.false_ne_true, bind_ok (h.userTables_last ht hne),
    if_neg (not_not.mpr hlast), bind_stop hsearch]

/-! The claim about a lookup, and when it holds. -/

/-- C can count the stabs, and whatever the searches read outside the array the user may read. -/
def SearchesHarmless (s : Kernel) (u : UserStabData) (addr : Word) : Prop :=
  ∃ n : Nat, Countable u n ∧
    ∀ p, Strays (s.stabAt u.stabs) (n - 1) addr p → FieldAccessible s u p

/-- What the user has at USTABDATA does no harm unchecked. -/
structure Harmless (s : Kernel) (addr : Word) : Prop where
  record : RecordAccessible s
  tables : s.userStabData.stabstrEnd ≤ s.userStabData.stabstr ∨
    (TablesAccessible s s.userStabData ∧
      (s.peek (s.userStabData.stabstrEnd - 1) ≠ 0 ∨ SearchesHarmless s s.userStabData addr))

theorem Harmless.accepted (hh : Harmless s addr) (h : InUser s e d) (haddr : addr < ulim)
    (hp : PtrDiff ptrdiff) :
    ∃ out, debuginfoEip linked ptrdiff (fun _ => s.accepts) addr s = .ok out s := by
  rw [h.lookup haddr (fun _ hb => hb) hh.record]
  rcases hh.tables with hle | ⟨ht, htail⟩
  · exact ⟨_, userTables_empty hle⟩
  · by_cases hne : s.userStabData.stabstrEnd ≤ s.userStabData.stabstr
    · exact ⟨_, userTables_empty hne⟩
    · by_cases hlast : s.peek (s.userStabData.stabstrEnd - 1) = 0
      · obtain ⟨n, hn, hstrays⟩ := htail.resolve_left (not_not.mpr hlast)
        obtain ⟨ds, hds, hrun⟩ := h.userTables_demands ht hne hlast hn hp addr
        obtain ⟨out, hout, -⟩ := hrun.returns_of_met fun p hp => hstrays p ((hds p).mp hp)
        exact ⟨out, hout⟩
      · exact ⟨_, h.userTables_unterminated ht hne hlast⟩

theorem Harmless.neverTrusts (hh : Harmless s addr) (h : InUser s e d) (haddr : addr < ulim) :
    NeverTrusts linked s addr where
  accepted := by
    intro ptrdiff hp va t hstop
    obtain ⟨out, hout⟩ : ∃ out, debuginfoEip linked ptrdiff (fun _ => s.accepts) addr s = .ok out s :=
      hh.accepted h haddr hp
    rw [hout] at hstop
    cases hstop
  record := fun hnot => absurd hh.record hnot
  tables := by
    intro _ hnot ptrdiff _
    rw [h.lookup haddr (fun _ _ => rfl) hh.record]
    rcases hh.tables with hle | ⟨ht, -⟩
    · exact ⟨_, _, userTables_empty hle⟩
    · exact absurd ht hnot

/-- A difference as C gives it. -/
theorem exists_ptrDiff : ∃ ptrdiff, PtrDiff ptrdiff := by
  refine ⟨ptrdiffAt 1#32 0#32, ptrDiff_ptrdiffAt ?_⟩
  rintro ⟨n, hn, -⟩
  have hone : (1#32 : Word).toNat = 1 := rfl
  omega

theorem NeverTrusts.record_accessible (hn : NeverTrusts linked s addr) (haddr : addr < ulim) :
    RecordAccessible s := by
  by_contra hnot
  obtain ⟨ptrdiff, hp⟩ := exists_ptrDiff
  obtain ⟨info, t, hrun⟩ := hn.record hnot ptrdiff hp
  rw [lookup_refused haddr rfl] at hrun
  cases hrun

theorem NeverTrusts.tables_accessible (hn : NeverTrusts linked s addr) (h : InUser s e d)
    (haddr : addr < ulim) (hne : ¬ s.userStabData.stabstrEnd ≤ s.userStabData.stabstr) :
    TablesAccessible s s.userStabData := by
  by_contra hnot
  have hrec := hn.record_accessible haddr
  obtain ⟨ptrdiff, hp⟩ := exists_ptrDiff
  obtain ⟨info, t, hrun⟩ := hn.tables hrec hnot ptrdiff hp
  rw [h.lookup haddr (fun _ _ => rfl) hrec, userTables_refused hne rfl] at hrun
  cases hrun

theorem NeverTrusts.searchesHarmless (hn : NeverTrusts linked s addr) (h : InUser s e d)
    (haddr : addr < ulim) (hne : ¬ s.userStabData.stabstrEnd ≤ s.userStabData.stabstr)
    (hlast : s.peek (s.userStabData.stabstrEnd - 1) = 0) :
    SearchesHarmless s s.userStabData addr := by
  have hrec := hn.record_accessible haddr
  have ht := hn.tables_accessible h haddr hne
  have hrun : ∀ {ptrdiff : Word → Word}, debuginfoEip linked ptrdiff (fun _ => s.accepts) addr s = _ :=
    fun {_} => h.lookup haddr (fun _ hb => hb) hrec
  by_cases hcount : ∃ n, Countable s.userStabData n
  · obtain ⟨n, hcount⟩ := hcount
    obtain ⟨ptrdiff, hp⟩ := exists_ptrDiff
    obtain ⟨ds, hds, hdem⟩ := h.userTables_demands ht hne hlast hcount hp addr
    refine ⟨n, hcount, fun p hstray => ?_⟩
    by_contra hnot
    obtain ⟨why, ⟨va, rfl⟩, hstop⟩ := hdem.stops_of_not fun hall => hnot (hall p ((hds p).mpr hstray))
    exact hn.accepted ptrdiff hp va s (hrun.trans hstop)
  · obtain ⟨ptrdiff, hp, va, hstop⟩ : ∃ ptrdiff, PtrDiff ptrdiff ∧ ∃ va, debuginfoTables _ addr s = _ :=
      h.userTables_uncountable ht hne hlast hcount
    exact absurd (hrun.trans hstop) (hn.accepted ptrdiff hp va s)

/-- Nothing is checked, so the lookup of a user address trusts no user memory exactly when what the
user has at USTABDATA is harmless. -/
theorem neverTrusts_iff (h : InUser s e d) (haddr : addr < ulim) :
    NeverTrusts linked s addr ↔ Harmless s addr := by
  refine ⟨fun hn => ⟨hn.record_accessible haddr, ?_⟩, fun hh => hh.neverTrusts h haddr⟩
  by_cases hne : s.userStabData.stabstrEnd ≤ s.userStabData.stabstr
  · exact Or.inl hne
  · refine Or.inr ⟨hn.tables_accessible h haddr hne, ?_⟩
    by_cases hlast : s.peek (s.userStabData.stabstrEnd - 1) = 0
    · exact Or.inr (hn.searchesHarmless h haddr hne hlast)
    · exact Or.inl hlast

/-- An environment whose one page, if any, is that of the record, below the kernel's last page. -/
def userSpace (record : Word) : Kernel :=
  { bss fun p i =>
      if p = 1 ∧ i = 0 then 0x2007#32
      else if p = 1 ∧ i = 1023 then 0x2003#32
      else if p = 2 ∧ i = 512 then record
      else if p = 2 ∧ i = 1023 then 0x3003#32
      else 0#32 with
    npages := 4
    envs := fun _ => { zeroEnv with envPgdir := some 1 }
    curenv := some 0
    cr3 := 1 }

theorem inUser_userSpace {record : Word} (hrec : ∀ p, target record = some p → p < 4) :
    InUser (userSpace record) 0 1 where
  env := rfl
  pgdir := rfl
  loaded := rfl
  top := by
    have hdir : (userSpace record).mem 1 (pdx 0xFFFFFFFF#32) = 0x2003#32 := rfl
    have htable : (userSpace record).mem (pgnum 0x2003#32) (ptx 0xFFFFFFFF#32) = 0x3003#32 := rfl
    rw [hwWalk_mapped (by rw [hdir]; decide) (by rw [hdir, htable]; decide)]
    rfl
  installed := by
    intro i hi t ht
    have hpde : (userSpace record).pde 1 i = if i = 0 then 0x2007#32 else 0#32 := by
      have hne : i ≠ 1023 := by
        rw [pdx_ulim] at hi
        omega
      by_cases h0 : i = 0 <;> simp [userSpace, bss, Kernel.pde, h0, hne]
    rw [hpde] at ht
    by_cases h0 : i = 0
    · rw [if_pos h0] at ht
      obtain rfl : 2 = t := Option.some.inj ht
      refine ⟨show 2 < 4 by decide, fun j _ p hp => ?_⟩
      have hpte : (userSpace record).mem 2 j =
          if j = 512 then record else if j = 1023 then 0x3003#32 else 0#32 := by
        simp [userSpace, bss]
      rw [hpte] at hp
      split at hp
      · exact hrec p hp
      · split at hp
        · obtain rfl : 3 = p := Option.some.inj hp
          exact show 3 < 4 by decide
        · rw [target_zero] at hp
          cases hp
    · rw [if_neg h0, target_zero] at ht
      cases ht

/-- No tables, in the kernel's place. -/
def noTables : SymTables LookupStop Kernel := userTables (fun _ _ => false) id ⟨0, 0, 0, 0⟩

/-- A record of zeros names an empty string table. -/
theorem neverTrusts_zeroRecord : NeverTrusts noTables (userSpace 0x3005#32) 0x800020#32 := by
  refine (neverTrusts_iff (inUser_userSpace fun p hp => ?_) (by decide)).mpr ⟨?_, Or.inl (by decide)⟩
  · obtain rfl : 3 = p := Option.some.inj hp
    decide
  · intro k hk
    interval_cases k <;> rfl

/-- Without a record the lookup reads unmapped memory. -/
theorem not_neverTrusts : ¬ ∀ (linked : SymTables LookupStop Kernel) (s : Kernel) (e d : Nat) (addr : Word),
    InUser s e d → addr < ulim → NeverTrusts linked s addr := by
  intro hall
  have hspace : InUser (userSpace 0#32) 0 1 := by
    refine inUser_userSpace fun p hp => ?_
    rw [target_zero] at hp
    cases hp
  have hn : NeverTrusts noTables (userSpace 0#32) 0x800020#32 := hall _ _ 0 1 _ hspace (by decide)
  exact absurd (hn.record_accessible (by decide) 0 (by decide)) (by decide)

end Jos
