import Jos.Kern.Memxv
import Jos.Kern.Tlb

/-! The pgmod command (mon_pgmod in kern/monitor.c), from its argument strings to the entry it
stores. -/
namespace Jos

open Prog

/-- What pgmod reads from its arguments, or the text printed when they are wrong. -/
def readPgmod (argv : List (List Byte)) : Except (List String) PgMod :=
  match argv with
  | [_, addrStr, userStr, writeStr] =>
    let (va, argEnd) := strtol addrStr 16
    if argEnd = addrStr then
      .error ["Error: First argument must be a hex number.\n"]
    else if va ≠ roundDown va pgsize then
      .error ["Error: <addr> must be a page aligned.\n"]
    else
      let va := roundDown va pgsize
      let (user, argEnd) := strtol userStr 16
      -- the number becomes a bool before it is looked at
      let allowUser : Bool := user ≠ 0
      if argEnd = userStr ∨ ¬ (allowUser = false ∨ allowUser = true) then
        .error ["Error: Second argument must be 0 or 1.\n"]
      else
        let (write, argEnd) := strtol writeStr 16
        let allowWrite : Bool := write ≠ 0
        if argEnd = writeStr ∨ ¬ (allowWrite = false ∨ allowWrite = true) then
          .error ["Error: Third argument must be 0 or 1.\n"]
        else
          .ok ⟨va, allowUser, allowWrite⟩
  | _ => .error ["Change permission of page mappings.\n\n", "Usage:\n", "pgmod <addr> <user> <write>\n"]

/-- The entry pgmod stores: its two rights cleared, then set as given. -/
def PgMod.entry (c : PgMod) (paWflags : Word) : Word :=
  paWflags &&& ~~~pteU &&& ~~~pteW |||
    (if c.allowUser then pteU else 0#32) ||| (if c.allowWrite then pteW else 0#32)

/-- mon_pgmod, with what it prints. -/
def monPgmodArgs (argv : List (List Byte)) : Kern (List String) :=
  match readPgmod argv with
  | .error msg => pure msg
  | .ok c => do
    let s ← read
    match ← pgdirWalk s.kernPgdir c.va false with
    | none => pure ["%08p has no page table.\n"]
    | some pte =>
      let s ← read
      let paWflags := s.mem pte.page pte.idx
      if paWflags ||| pteP = 0#32 then
        pure ["%08p has no page.\n"]
      else do
        update fun s => s.store pte.page pte.idx (c.entry paWflags)
        pure []

/-! What the arguments mean as numbers. -/

/-- The digits of a hex number, to the end of the string. -/
def hexDigits : List Byte → Nat → Option Nat
  | [], val => some val
  | c :: s, val =>
    match digitValue c with
    | none => none
    | some dig => if dig < 16 then hexDigits s (val * 16 + dig.toNat) else none

/-- A hex number: a sign and "0x" may stand before its digits, and nothing behind them. -/
def hexNumber (s : List Byte) : Option Int :=
  let s := skipBlanks s
  let neg := s.take 1 = [45]
  let s := if s.take 1 = [43] ∨ neg then s.drop 1 else s
  let s := if s.take 2 = [48, 120] then s.drop 2 else s
  if s = [] then
    none
  else
    (hexDigits s 0).map fun n : Nat => if neg then -(n : Int) else n

/-- The arguments are a page-aligned hex number and twice the number 0 or 1. -/
def PgmodArgs (argv : List (List Byte)) (c : PgMod) : Prop :=
  ∃ name addr user write n, argv = [name, addr, user, write] ∧
    hexNumber addr = some n ∧ n % 4096 = 0 ∧ c.va = BitVec.ofInt 32 n ∧
    hexNumber user = some (if c.allowUser then 1 else 0) ∧
    hexNumber write = some (if c.allowWrite then 1 else 0)

variable {s t : Kernel} {str rest : List Byte} {argv : List (List Byte)} {c : PgMod} {va w : Word}
  {n val : Nat} {i : Int} {msg : List String}

/-- strtol reads the digits modulo 2^32. -/
theorem strtolDigits_hex (h : hexDigits str val = some n) :
    strtolDigits 16 str (BitVec.ofNat 32 val) = (BitVec.ofNat 32 n, []) := by
  induction str generalizing val with
  | nil =>
    rw [hexDigits] at h
    rw [strtolDigits, Option.some.inj h]
  | cons c str ih =>
    rw [hexDigits] at h
    rw [strtolDigits]
    cases hd : digitValue c with
    | none =>
      rw [hd] at h
      cases h
    | some dig =>
      simp only [hd] at h ⊢
      by_cases hlt : dig < 16
      · rw [if_pos hlt] at h
        have hval : BitVec.ofNat 32 val * 16 + dig = BitVec.ofNat 32 (val * 16 + dig.toNat) := by
          apply BitVec.eq_of_toNat_eq
          simp [BitVec.toNat_add, BitVec.toNat_mul]
        rw [if_neg (BitVec.not_le.mpr hlt), hval]
        exact ih h
      · rw [if_neg hlt] at h
        cases h

theorem strtolBase_hex (r : List Byte) :
    strtolBase 16 r = (16, if r.take 2 = [48, 120] then r.drop 2 else r) := by
  unfold strtolBase
  by_cases hpre : r.take 2 = [48, 120]
  · rw [if_pos ⟨Or.inr rfl, hpre⟩, if_pos hpre]
  · rw [if_neg (fun h => hpre h.2), if_neg (fun h => absurd h.1 (by decide)), if_neg (by decide),
      if_neg hpre]

/-- strtol returns a hex number modulo 2^32, and has read all of it. -/
theorem strtol_hexNumber (h : hexNumber str = some i) : strtol str 16 = (BitVec.ofInt 32 i, []) := by
  unfold hexNumber at h
  unfold strtol
  simp only [strtolBase_hex] at h ⊢
  generalize (if (skipBlanks str).take 1 = [43] ∨ (skipBlanks str).take 1 = [45] then
    (skipBlanks str).drop 1 else skipBlanks str) = r at h ⊢
  obtain ⟨n, hn, hi⟩ : ∃ n, hexDigits (if r.take 2 = [48, 120] then r.drop 2 else r) 0 = some n ∧
      (if (skipBlanks str).take 1 = [45] then -(n : Int) else n) = i := by
    by_cases hempty : (if r.take 2 = [48, 120] then r.drop 2 else r) = []
    · rw [if_pos hempty] at h
      cases h
    · rw [if_neg hempty] at h
      exact Option.map_eq_some_iff.mp h
  rw [show strtolDigits 16 _ 0 = (BitVec.ofNat 32 n, []) from strtolDigits_hex hn, ← hi]
  by_cases hneg : (skipBlanks str).take 1 = [45]
  · rw [if_pos hneg, if_pos hneg, BitVec.ofInt_neg, BitVec.ofInt_natCast]
  · rw [if_neg hneg, if_neg hneg, BitVec.ofInt_natCast]

theorem hexNumber_ne_nil (h : hexNumber str = some i) : str ≠ [] := by
  rintro rfl
  cases h

/-- What the arguments mean is what pgmod reads. -/
theorem PgmodArgs.read (h : PgmodArgs argv c) : readPgmod argv = .ok c := by
  obtain ⟨name, addr, user, write, n, rfl, haddr, hn, hva, huser, hwrite⟩ := h
  have ha := strtol_hexNumber haddr
  have hu := strtol_hexNumber huser
  have hw := strtol_hexNumber hwrite
  have hbool : ∀ b : Bool, decide (BitVec.ofInt 32 (if b then 1 else 0) ≠ 0) = b := by decide
  have halign : roundDown (BitVec.ofInt 32 n) pgsize = BitVec.ofInt 32 n := by
    apply BitVec.eq_of_toNat_eq
    rw [toNat_roundDown, BitVec.toNat_ofInt]
    omega
  simp only [readPgmod, ha, hu, hw, halign, hbool]
  rw [if_neg (Ne.symm (hexNumber_ne_nil haddr)), if_neg (fun hne => hne rfl), if_neg, if_neg]
  · obtain ⟨va, user', write'⟩ := c
    rw [show va = BitVec.ofInt 32 n from hva]
  · rintro (hnil | hb)
    · exact hexNumber_ne_nil hwrite hnil.symm
    · cases c.allowWrite <;> simp at hb
  · rintro (hnil | hb)
    · exact hexNumber_ne_nil huser hnil.symm
    · cases c.allowUser <;> simp at hb

section entry

theorem pteP_bit : ∀ i < 32, pteP.getLsbD i = decide (i = 0) := by decide

theorem pteW_bit : ∀ i < 32, pteW.getLsbD i = decide (i = 1) := by decide

theorem pteU_bit : ∀ i < 32, pteU.getLsbD i = decide (i = 2) := by decide

/-- The entry pgmod stores, bit by bit. -/
theorem PgMod.entry_getLsbD {i : Nat} (hi : i < 32) (c : PgMod) (e : Word) : (c.entry e).getLsbD i =
    if i = 1 then c.allowWrite else if i = 2 then c.allowUser else e.getLsbD i := by
  have hU : (if c.allowUser then pteU else 0#32).getLsbD i = (c.allowUser && decide (i = 2)) := by
    cases c.allowUser
    · exact BitVec.getLsbD_zero
    · exact pteU_bit i hi
  have hW : (if c.allowWrite then pteW else 0#32).getLsbD i = (c.allowWrite && decide (i = 1)) := by
    cases c.allowWrite
    · exact BitVec.getLsbD_zero
    · exact pteW_bit i hi
  rw [PgMod.entry, BitVec.getLsbD_or, BitVec.getLsbD_or, BitVec.getLsbD_and, BitVec.getLsbD_and,
    BitVec.getLsbD_not, BitVec.getLsbD_not, pteU_bit i hi, pteW_bit i hi, hU, hW]
  by_cases h1 : i = 1
  · simp [h1]
  · by_cases h2 : i = 2
    · simp [h2]
    · simp [h1, h2, hi]

theorem PgMod.has_entry_U (c : PgMod) (e : Word) : Has (c.entry e) pteU ↔ c.allowUser = true := by
  rw [has_bit (by decide) pteU_bit, c.entry_getLsbD (by decide)]
  simp

theorem PgMod.has_entry_W (c : PgMod) (e : Word) : Has (c.entry e) pteW ↔ c.allowWrite = true := by
  rw [has_bit (by decide) pteW_bit, c.entry_getLsbD (by decide)]
  simp

theorem PgMod.has_entry_P (c : PgMod) (e : Word) : Has (c.entry e) pteP ↔ Has e pteP := by
  rw [has_bit (by decide) pteP_bit, has_bit (by decide) pteP_bit, c.entry_getLsbD (by decide)]
  simp

theorem PgMod.pgnum_entry (c : PgMod) (e : Word) : pgnum (c.entry e) = pgnum e := by
  unfold pgnum
  congr 1
  apply BitVec.eq_of_getLsbD_eq
  intro i hi
  rw [BitVec.getLsbD_ushiftRight, BitVec.getLsbD_ushiftRight]
  by_cases hlt : 12 + i < 32
  · rw [c.entry_getLsbD hlt, if_neg (by omega), if_neg (by omega)]
  · rw [BitVec.getLsbD_of_ge _ _ (by omega), BitVec.getLsbD_of_ge _ _ (by omega)]

/-- An entry that has the two rights as given is the one pgmod stores. -/
theorem PgMod.entry_eq_self {e : Word} : c.entry e = e ↔
    (Has e pteU ↔ c.allowUser = true) ∧ (Has e pteW ↔ c.allowWrite = true) := by
  constructor
  · intro h
    have hU := c.has_entry_U e
    have hW := c.has_entry_W e
    rw [h] at hU hW
    exact ⟨hU, hW⟩
  · rintro ⟨hU, hW⟩
    rw [has_bit (by decide) pteU_bit] at hU
    rw [has_bit (by decide) pteW_bit] at hW
    apply BitVec.eq_of_getLsbD_eq
    intro i hi
    rw [c.entry_getLsbD hi]
    by_cases h1 : i = 1
    · rw [if_pos h1, h1]
      exact (Bool.eq_iff_iff.mpr hW).symm
    · by_cases h2 : i = 2
      · rw [if_neg h1, if_pos h2, h2]
        exact (Bool.eq_iff_iff.mpr hU).symm
      · rw [if_neg h1, if_neg h2]

end entry

/-! What one command does. -/

/-- The entry pgmod goes for: table `p` of the kernel's directory, at the address. -/
def PgMod.table (s : Kernel) (c : PgMod) : Option Nat := target (s.pde s.kernPgdir (pdx c.va))

/-- Only the entry of the address has changed, and of it only the two rights, which are as given. -/
def SetsRights (s t : Kernel) (c : PgMod) : Prop :=
  ∃ p w, c.table s = some p ∧ t.mem = (s.store p (ptx c.va) w).mem ∧
    (Has w pteU ↔ c.allowUser = true) ∧ (Has w pteW ↔ c.allowWrite = true) ∧
    ∀ i < 32, i ≠ 1 → i ≠ 2 → w.getLsbD i = (s.mem p (ptx c.va)).getLsbD i

/-- The arguments are right and a page is mapped at the address. -/
def Modifies (s : Kernel) (argv : List (List Byte)) (c : PgMod) : Prop :=
  PgmodArgs argv c ∧ Has (s.entryOf s.kernPgdir c.va) pteP

/-- pgmod leaves everything as it was, or the arguments are right, a page is mapped at the address,
its rights are set, and the processor can use no other rights there. -/
def PgmodSound (s : Kernel) (argv : List (List Byte)) : Prop :=
  ∃ msg t, monPgmodArgs argv s = .ok msg t ∧
    ((¬ ∃ c, Modifies s argv c) → t.mem = s.mem) ∧
    ∀ c, Modifies s argv c → SetsRights s t c ∧
      ∀ x, Usable s t c.va x → hwWalk t.mem t.cr3 c.va = some x

/-- Right `f` of an entry, given as `b` where the entry is entry `i` of table `p`. -/
def rightGiven (s : Kernel) (p i : Nat) (b : Bool) (f : Word) (q j : Nat) : Bool :=
  if q = p ∧ j = i then b else Has (s.mem q j) f

/-- With the rights given, the loaded directory grants at the address what it grants without. -/
def Unnoticed (s : Kernel) (p : Nat) (c : PgMod) : Prop :=
  ∀ x, hwWalk s.mem s.cr3 c.va = some x →
    let granted (b : Bool) (f : Word) :=
      rightGiven s p (ptx c.va) b f s.cr3 (pdx c.va) &&
        rightGiven s p (ptx c.va) b f (pgnum (s.mem s.cr3 (pdx c.va))) (ptx c.va)
    x.user = granted c.allowUser pteU ∧ x.write = granted c.allowWrite pteW

theorem monPgmodArgs_error (h : readPgmod argv = .error msg) : monPgmodArgs argv s = .ok msg s := by
  rw [monPgmodArgs, h]
  rfl

theorem monPgmodArgs_noTable (h : readPgmod argv = .ok c) (ht : c.table s = none) :
    monPgmodArgs argv s = .ok ["%08p has no page table.\n"] s := by
  rw [monPgmodArgs, h]
  simp only [bind_ok (read_apply s), bind_ok (pgdirWalk_absent ht)]
  rfl

/-- The test for a page never fails: every entry with PTE_P set in it differs from 0. -/
theorem or_pteP_ne_zero (e : Word) : e ||| pteP ≠ 0#32 := by
  intro h
  have hbit := congrArg (fun v : Word => v.getLsbD 0) h
  rw [BitVec.getLsbD_or, pteP_bit 0 (by decide)] at hbit
  simp at hbit

theorem monPgmodArgs_table {p : Nat} (h : readPgmod argv = .ok c) (ht : c.table s = some p)
    (hp : p < s.npages) : monPgmodArgs argv s =
      .ok [] (s.store p (ptx c.va) (c.entry (s.mem p (ptx c.va)))) := by
  rw [monPgmodArgs, h]
  simp only [bind_ok (read_apply s), bind_ok (pgdirWalk_present ht hp)]
  rw [if_neg (or_pteP_ne_zero _)]
  rfl

/-- KADDR panics at a page table outside memory. -/
theorem monPgmodArgs_returns {p : Nat} (h : readPgmod argv = .ok c) (ht : c.table s = some p)
    (hrun : monPgmodArgs argv s = .ok msg t) : p < s.npages := by
  rw [monPgmodArgs, h] at hrun
  obtain ⟨_, u, hread, hrun⟩ := bind_eq_ok.mp hrun
  obtain ⟨rfl, rfl⟩ := read_eq_ok.mp hread
  obtain ⟨o, u, hwalk, -⟩ := bind_eq_ok.mp hrun
  obtain rfl := pgdirWalk_observes _ _ _ _ _ hwalk
  exact pgdirWalk_returns.mp ⟨o, hwalk⟩ p ht

theorem readPgmod_aligned (h : readPgmod argv = .ok c) : c.va = roundDown c.va pgsize := by
  unfold readPgmod at h
  split at h
  · simp only at h
    split at h
    · cases h
    · split at h
      · cases h
      · rename_i halign
        have hva := not_not.mp halign
        split at h
        · cases h
        · split at h
          · cases h
          · cases h
            rw [← hva]
            exact hva
  · cases h

/-- The commands of a monitor session are these, their arguments read. -/
theorem monPgmodArgs_eq (h : readPgmod argv = .ok c) :
    (∃ msg, monPgmodArgs argv s = .ok msg t) ↔ monPgmod c s = .ok () t := by
  have haligned := readPgmod_aligned h
  have hmon : monPgmod c s = (pgdirWalk s.kernPgdir c.va false >>= fun o => match o with
      | none => pure ()
      | some pte => update fun s =>
        let paWflags := s.mem pte.page pte.idx
        if paWflags ||| pteP = 0#32 then s else s.store pte.page pte.idx (c.entry paWflags)) s := by
    rw [monPgmod, bind_ok (read_apply s), Prog.ite_apply, if_neg (not_not.mpr haligned)]
    rfl
  cases ht : c.table s with
  | none =>
    have hwalk : pgdirWalk s.kernPgdir c.va false s = .ok none s := pgdirWalk_absent ht
    rw [monPgmodArgs_noTable h ht, hmon, bind_ok hwalk]
    constructor
    · rintro ⟨msg, hrun⟩
      cases hrun
      rfl
    · intro hrun
      cases hrun
      exact ⟨_, rfl⟩
  | some p =>
    by_cases hp : p < s.npages
    · rw [monPgmodArgs_table h ht hp, hmon, bind_ok (pgdirWalk_present ht hp), update_apply]
      simp only [or_pteP_ne_zero, if_false]
      constructor
      · rintro ⟨msg, hrun⟩
        cases hrun
        rfl
      · intro hrun
        cases hrun
        exact ⟨_, rfl⟩
    · constructor
      · rintro ⟨msg, hrun⟩
        exact absurd (monPgmodArgs_returns h ht hrun) hp
      · intro hrun
        rw [hmon] at hrun
        obtain ⟨o, u, hwalk, -⟩ := bind_eq_ok.mp hrun
        obtain rfl := pgdirWalk_observes _ _ _ _ _ hwalk
        exact absurd (pgdirWalk_returns.mp ⟨o, hwalk⟩ p ht) hp

/-- The walk after the store of an entry that differs in its two rights only. -/
theorem hwWalk_setRights {p d : Nat} {x : Translation} (hx : hwWalk s.mem d c.va = some x) :
    hwWalk (s.store p (ptx c.va) (c.entry (s.mem p (ptx c.va)))).mem d c.va = some ⟨x.page,
      rightGiven s p (ptx c.va) c.allowUser pteU d (pdx c.va) &&
        rightGiven s p (ptx c.va) c.allowUser pteU (pgnum (s.mem d (pdx c.va))) (ptx c.va),
      rightGiven s p (ptx c.va) c.allowWrite pteW d (pdx c.va) &&
        rightGiven s p (ptx c.va) c.allowWrite pteW (pgnum (s.mem d (pdx c.va))) (ptx c.va)⟩ := by
  generalize hm : (s.store p (ptx c.va) (c.entry (s.mem p (ptx c.va)))).mem = m
  have hcell : ∀ q j, (Has (m q j) pteP ↔ Has (s.mem q j) pteP) ∧
      pgnum (m q j) = pgnum (s.mem q j) ∧
      decide (Has (m q j) pteU) = rightGiven s p (ptx c.va) c.allowUser pteU q j ∧
      decide (Has (m q j) pteW) = rightGiven s p (ptx c.va) c.allowWrite pteW q j := by
    intro q j
    unfold rightGiven
    rw [← hm, Kernel.mem_store]
    by_cases hqj : q = p ∧ j = ptx c.va
    · obtain ⟨rfl, rfl⟩ := hqj
      simp [c.has_entry_P, c.pgnum_entry, c.has_entry_U, c.has_entry_W]
    · simp [hqj]
  obtain ⟨hdP, hdnum, hdU, hdW⟩ := hcell d (pdx c.va)
  obtain ⟨htP, htnum, htU, htW⟩ := hcell (pgnum (s.mem d (pdx c.va))) (ptx c.va)
  have hd : Has (s.mem d (pdx c.va)) pteP := by
    by_contra hn
    rw [hwWalk_absent hn] at hx
    cases hx
  have ht : Has (s.mem (pgnum (s.mem d (pdx c.va))) (ptx c.va)) pteP := by
    by_contra hn
    rw [hwWalk_unmapped hn] at hx
    cases hx
  rw [hwWalk_mapped hd ht] at hx
  obtain rfl := Option.some.inj hx
  have hdP' := hdP.mpr hd
  have htP' := htP.mpr ht
  rw [← hdnum] at htP' htnum htU htW
  rw [hwWalk_mapped hdP' htP', Bool.decide_and, Bool.decide_and, hdU, htU, hdW, htW, htnum, hdnum]

/-- No translation with other rights stays usable, exactly when the rights were granted before. -/
theorem usable_iff_unnoticed {p : Nat} :
    (∀ x, Usable s (s.store p (ptx c.va) (c.entry (s.mem p (ptx c.va)))) c.va x →
      hwWalk (s.store p (ptx c.va) (c.entry (s.mem p (ptx c.va)))).mem s.cr3 c.va = some x) ↔
      Unnoticed s p c := by
  constructor
  · intro h x hx
    have hnew := h x (usable_store.mpr (Or.inl hx))
    rw [hwWalk_setRights hx] at hnew
    have heq := Option.some.inj hnew
    exact ⟨(congrArg Translation.user heq).symm, (congrArg Translation.write heq).symm⟩
  · intro h x hx
    rcases usable_store.mp hx with hold | hnew
    · obtain ⟨hu, hw⟩ := h x hold
      simp only at hu hw
      rw [hwWalk_setRights hold, ← hu, ← hw]
    · exact hnew

theorem setsRights_store {p : Nat} (ht : c.table s = some p) :
    SetsRights s (s.store p (ptx c.va) (c.entry (s.mem p (ptx c.va)))) c := by
  refine ⟨p, _, ht, rfl, c.has_entry_U _, c.has_entry_W _, fun i hi h1 h2 => ?_⟩
  rw [c.entry_getLsbD hi, if_neg h1, if_neg h2]

/-- What the arguments mean, if anything, is what was read. -/
theorem Modifies.eq {c' : PgMod} (h : Modifies s argv c') (hc : readPgmod argv = .ok c) : c' = c := by
  have hread := h.1.read
  rw [hc] at hread
  exact (Except.ok.inj hread).symm

/-- What a sound command has met. -/
theorem PgmodSound.met {p : Nat} (h : PgmodSound s argv) (hc : readPgmod argv = .ok c)
    (ht : c.table s = some p) : p < s.npages ∧ (Modifies s argv c → Unnoticed s p c) ∧
      (¬ Modifies s argv c → (Has (s.mem p (ptx c.va)) pteU ↔ c.allowUser = true) ∧
        (Has (s.mem p (ptx c.va)) pteW ↔ c.allowWrite = true)) := by
  obtain ⟨msg, t, hrun, hsame, hset⟩ := h
  have hp := monPgmodArgs_returns hc ht hrun
  rw [monPgmodArgs_table hc ht hp] at hrun
  obtain ⟨-, rfl⟩ := Outcome.ok.inj hrun
  refine ⟨hp, fun hm => usable_iff_unnoticed.mp (hset c hm).2, fun hm => c.entry_eq_self.mp ?_⟩
  have hmem := hsame fun ⟨c', hm'⟩ => hm (hm'.eq hc ▸ hm')
  have hentry := congrFun (congrFun hmem p) (ptx c.va)
  rwa [Kernel.mem_store, if_pos ⟨rfl, rfl⟩] at hentry

/-- pgmod is sound exactly when it rejects the arguments or finds no page table, or the table lies in
memory and either the arguments are right, a page is mapped and nothing the processor may have cached
differs, or the entry has the two rights already. -/
theorem pgmodSound_iff : PgmodSound s argv ↔
    ∀ c, readPgmod argv = .ok c → ∀ p, c.table s = some p → p < s.npages ∧
      (Modifies s argv c → Unnoticed s p c) ∧
      (¬ Modifies s argv c → (Has (s.mem p (ptx c.va)) pteU ↔ c.allowUser = true) ∧
        (Has (s.mem p (ptx c.va)) pteW ↔ c.allowWrite = true)) := by
  constructor
  · intro h c hc p ht
    exact h.met hc ht
  · intro h
    cases hc : readPgmod argv with
    | error msg =>
      refine ⟨msg, s, monPgmodArgs_error hc, fun _ => rfl, fun c hm => ?_⟩
      rw [hm.1.read] at hc
      cases hc
    | ok c =>
      cases ht : c.table s with
      | none =>
        refine ⟨_, s, monPgmodArgs_noTable hc ht, fun _ => rfl, fun c' hm => ?_⟩
        obtain rfl := hm.eq hc
        have hP := hm.2
        rw [Kernel.entryOf, Kernel.pte_of_no_table ht] at hP
        exact absurd hP not_has_zero
      | some p =>
        obtain ⟨hp, huse, hrights⟩ := h c hc p ht
        refine ⟨[], _, monPgmodArgs_table hc ht hp, fun hn => ?_, fun c' hm => ?_⟩
        · rw [c.entry_eq_self.mpr (hrights fun hm => hn ⟨c, hm⟩)]
          funext q j
          rw [Kernel.mem_store]
          split
          · rename_i hqj
            rw [hqj.1, hqj.2]
          · rfl
        · obtain rfl := hm.eq hc
          exact ⟨setsRights_store ht, usable_iff_unnoticed.mpr (huse hm)⟩

section booting

variable {m : Machine} {s₀ : Kernel} {fl : List Nat}

/-- The entry pgmod goes for, in a directory entry mem_init has filled. -/
theorem Booting.pgmodTable (h : Booting m s₀ s fl (kernelMap m)) (hi : pdx c.va ∈ kernEntries) :
    ∃ p, c.table s = some p ∧ s.mem p (ptx c.va) = kernelMap m (pgnum c.va) ∧
      Has (s.mem s.kernPgdir (pdx c.va)) pteU := by
  obtain ⟨p, hp⟩ := h.dir.present_of_kernEntries h.heap.fits hi
  have hP : Has (tableEntry p) pteP := KernelDir.has_tableEntry (by decide) (by decide)
  have htable : c.table s = some (pgnum (tableEntry p)) := by
    rw [PgMod.table, hp]
    exact target_eq_some.mpr ⟨hP, rfl⟩
  have hU : Has (s.mem s.kernPgdir (pdx c.va)) pteU := by
    rw [← Kernel.pde, hp]
    exact KernelDir.has_tableEntry (by decide) (by decide)
  refine ⟨_, htable, ?_, hU⟩
  have hne : pdx c.va ≠ 957 := by
    have := (mem_kernEntries.mp hi).2
    omega
  rw [← h.entryOf_eq hne, Kernel.entryOf, Kernel.pte_of_target htable]

end booting

/-- The argument strings "pgmod", "efff7000", "0" and "1": the page below the kernel stack. -/
def guardPage : List (List Byte) :=
  [[112, 103, 109, 111, 100], [101, 102, 102, 102, 55, 48, 48, 48], [48], [49]]

/-- The argument strings "pgmod", "f0000000", "2" and "1". -/
def userTwo : List (List Byte) :=
  [[112, 103, 109, 111, 100], [102, 48, 48, 48, 48, 48, 48, 48], [50], [49]]

/-- The argument strings "pgmod", "f0000000", "1" and "1". -/
def userBase : List (List Byte) :=
  [[112, 103, 109, 111, 100], [102, 48, 48, 48, 48, 48, 48, 48], [49], [49]]

/-- Behind mem_init: pgmod changes the entry of an unmapped page, takes the number 2 for 1, and does
not flush the old rights of a mapped page. -/
theorem not_pgmodSound : ∃ s, memInit smallMachine (bss fun _ _ => 0) = .ok () s ∧
    ¬ PgmodSound s guardPage ∧ ¬ PgmodSound s userTwo ∧ ¬ PgmodSound s userBase := by
  obtain ⟨s, hs⟩ := memInit_smallMachine fun _ _ => 0
  obtain ⟨fl, hb, -⟩ := memInit_booting hs
  have hguard : kernelMap smallMachine (pgnum 0xEFFF7000#32) = 0#32 :=
    kernelMap_guard _ (by decide) (by decide)
  have hbase : kernelMap smallMachine (pgnum kernbase) = pageEntry 0 pteW :=
    kernelMap_base _ (k := 0) (by decide)
  refine ⟨s, hs, fun h => ?_, fun h => ?_, fun h => ?_⟩
  · have hc : readPgmod guardPage = .ok ⟨0xEFFF7000#32, false, true⟩ := by decide
    obtain ⟨p, ht, hentry, -⟩ := hb.pgmodTable (c := ⟨0xEFFF7000#32, false, true⟩)
      (mem_kernEntries.mpr (by decide))
    have hzero : s.mem p (ptx 0xEFFF7000#32) = 0#32 := hentry.trans hguard
    have hnone : ¬ Has (s.entryOf s.kernPgdir 0xEFFF7000#32) pteP := by
      rw [hb.entryOf_eq (by decide), hguard]
      exact not_has_zero
    have hW : Has (s.mem p (ptx 0xEFFF7000#32)) pteW :=
      ((h.met hc ht).2.2 fun hm => hnone hm.2).2.mpr rfl
    rw [hzero] at hW
    exact not_has_zero hW
  · have hc : readPgmod userTwo = .ok ⟨kernbase, true, true⟩ := by decide
    obtain ⟨p, ht, hentry, -⟩ := hb.pgmodTable (c := ⟨kernbase, true, true⟩)
      (mem_kernEntries.mpr (by decide))
    have hfirst : s.mem p (ptx kernbase) = pageEntry 0 pteW := hentry.trans hbase
    have hnot : ¬ Modifies s userTwo ⟨kernbase, true, true⟩ := by
      rintro ⟨⟨name, addr, user, write, n, hargs, -, -, -, huser, -⟩, -⟩
      cases hargs
      exact absurd huser (by decide)
    have hU : Has (s.mem p (ptx kernbase)) pteU := ((h.met hc ht).2.2 hnot).1.mpr rfl
    rw [hfirst] at hU
    exact absurd hU (by decide)
  · have hc : readPgmod userBase = .ok ⟨kernbase, true, true⟩ := by decide
    obtain ⟨p, ht, hentry, hdir⟩ := hb.pgmodTable (c := ⟨kernbase, true, true⟩)
      (mem_kernEntries.mpr (by decide))
    have hargs : PgmodArgs userBase ⟨kernbase, true, true⟩ :=
      ⟨_, _, _, _, 0xF0000000, rfl, by decide, by decide, by decide, by decide, by decide⟩
    have hP : KernMapped s kernbase := hb.base_mapped (BitVec.le_refl _)
    -- the processor walks kern_pgdir, and its translation of KERNBASE is not for the user
    have hcr3 := hb.cr3_eq
    obtain ⟨x, hx⟩ := Option.isSome_iff_exists.mp (hb.walk.mpr hP)
    have hold : x.user = false := by
      have hu := (hwWalk_eq_some.mp hx).2.1
      rw [hcr3, ← Kernel.entryOf, hb.entryOf_eq (by decide), hbase] at hu
      rw [hu]
      exact decide_eq_false fun hb => absurd hb.2 (by decide)
    have hnew := ((h.met hc ht).2.1 ⟨hargs, hP⟩ x hx).1
    rw [hold] at hnew
    have hp : pgnum (s.mem s.kernPgdir (pdx kernbase)) = p := (target_eq_some.mp ht).2
    simp [rightGiven, hcr3, hdir, hp] at hnew

end Jos
