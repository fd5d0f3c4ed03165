import Jos.Kern.CheckSound
import Jos.Kern.FreshData
import Jos.Kern.SyscallAbi
import Jos.Lib.Printbuf
import Mathlib.Data.List.TakeWhile

/-! User output on its way to the console: the user library's printbuf and the kernel's sys_cputs. -/
namespace Jos

open Prog

/-- The text before the first NUL. -/
def untilNul (text : List Byte) : List Byte := text.takeWhile (· ≠ 0)

/-- What sys_cputs prints in a system call, and what syscall returns from it. -/
structure CputsCall where
  printed : List Byte
  result : Word

/-- The kernel under a user program, with the outcomes of the program's sys_cputs calls. -/
structure Host where
  kern : Kernel
  calls : List CputsCall

/-- What sys_cputs prints, when it returns. -/
def Kernel.prints (s : Kernel) (va len : Word) : List Byte :=
  match sysCputs va len s with
  | .ok text _ => text
  | .stop _ _ => []

namespace Host

def printed (s : Host) : List Byte := s.calls.flatMap (·.printed)

def onKern {α : Type} (x : Kern α) : Prog Stop Host α :=
  ⟨fun s => match x s.kern with
    | .ok a t => .ok a { s with kern := t }
    | .stop e t => .stop e { s with kern := t }⟩

/-- The user library in the current environment, the characters of its printbuf at `buf`. -/
def lib (w : Outside) (buf : Word) : UserLib Stop Host where
  load a := onKern (loadByte a)
  store i c := onKern (storeByte (buf + i) c)
  sysCputs n := do
    let s ← Prog.read
    let r ← onKern (syscall w sysCputsNo buf n 0 0 0)
    update fun t => { t with calls := t.calls ++ [⟨s.kern.prints buf n, r⟩] }
  spin := .spin
  stray := kernelFault

/-- The user library is given the characters `ws`, one after the other. -/
def output (w : Outside) (buf : Word) (ws : List Word) : Prog Stop (Printbuf × Host) Word :=
  (lib w buf).session ((lib w buf).putAll ws)

end Host

/-- The characters arrive as they are, and every system call reports success. -/
def ArrivesUnchanged (w : Outside) (buf : Word) (s : Kernel) (b : Printbuf) (ws : List Word) : Prop :=
  ∃ cnt b' t, Host.output w buf ws (b, ⟨s, []⟩) = .ok cnt (b', t) ∧
    t.printed = ws.map (BitVec.setWidth 8) ∧ ∀ call ∈ t.calls, 0 ≤ call.result.toInt

/-- The output ends, all of it arrives just when it has no NUL byte, and every system call reports
-E_NO_SYS. -/
def ArrivesUpToNul (w : Outside) (buf : Word) (s : Kernel) (b : Printbuf) (ws : List Word) : Prop :=
  ∃ cnt b' t, Host.output w buf ws (b, ⟨s, []⟩) = .ok cnt (b', t) ∧
    (t.printed = ws.map (BitVec.setWidth 8) ↔ ∀ w ∈ ws, w.setWidth 8 ≠ (0 : Byte)) ∧
    t.calls ≠ [] ∧ ∀ call ∈ t.calls, call.result = BitVec.ofInt 32 (-eNoSys)

/-- A reachable state in which the current environment may write the 256 bytes at `buf`. -/
structure OwnsBuffer (m : Machine) (mem : Nat → Nat → Word) (s : Kernel) (e : Nat) (buf : Word) :
    Prop where
  run : SysRun m mem s
  cur : s.curenv = some e
  live : Live s e
  pgdir : (s.envs e).envPgdir = some s.cr3
  write : ∀ i < 256, UserCanWrite s.mem s.cr3 (buf + BitVec.ofNat 32 i)

section untilNul

variable {l : List Byte} {c : Byte}

theorem untilNul_nul : untilNul (0 :: l) = [] := List.takeWhile_cons_of_neg (by decide)

theorem untilNul_cons (h : c ≠ 0) : untilNul (c :: l) = c :: untilNul l :=
  List.takeWhile_cons_of_pos (decide_eq_true h)

theorem ne_of_mem_untilNul (h : c ∈ untilNul l) : c ≠ 0 := by
  unfold untilNul at h
  have hp := List.mem_takeWhile_imp h
  exact of_decide_eq_true hp

theorem untilNul_eq (h : ∀ c ∈ l, c ≠ 0) : untilNul l = l :=
  List.takeWhile_eq_self_iff.mpr fun c hc => decide_eq_true (h c hc)

/-- Text cut at the NULs of its parts is all there just when there is no NUL in it. -/
theorem flatMap_untilNul_eq_iff (parts : List (List Byte)) :
    parts.flatMap untilNul = parts.flatten ↔ ∀ c ∈ parts.flatten, c ≠ 0 := by
  constructor
  · intro h c hc
    rw [← h] at hc
    obtain ⟨part, -, hc⟩ := List.mem_flatMap.mp hc
    exact ne_of_mem_untilNul hc
  · intro h
    have hmap : parts.map untilNul = parts.map id := List.map_congr_left fun part hpart =>
      untilNul_eq fun c hc => h c (List.mem_flatten_of_mem hpart hc)
    rw [List.flatMap_def, hmap, List.map_id]

end untilNul

section output

variable {m : Machine} {mem : Nat → Nat → Word} {s t : Kernel} {L : Ledger} {fl efl : List Nat}
  {d e i j k n p off fuel : Nat} {va buf len : Word} {b c : Byte} {w : Outside} {pb : Printbuf}
  {text : Nat → Byte} {ws : List Word}

theorem onKern_ok {α : Type} {x : Kern α} {a : α} {u : Host} (h : x u.kern = .ok a t) :
    Host.onKern x u = .ok a { u with kern := t } := by
  change (match x u.kern with
    | .ok a t => Outcome.ok a { u with kern := t }
    | .stop e t => .stop e { u with kern := t }) = _
  rw [h]

theorem loadByte_ok (h : s.byteAt s.cr3 va = some b) : loadByte va s = .ok b s := by
  obtain ⟨x, hx, rfl⟩ := Option.map_eq_some_iff.mp h
  rw [loadByte, bind_ok (read_apply s)]
  simp only [hx]
  rfl

/-- printString stops at a NUL or after `n` characters, and looks one character further. -/
theorem printString_ok (hfuel : n < fuel)
    (htext : ∀ k ≤ n, loadByte (va + BitVec.ofNat 32 k) s = .ok (text k) s) :
    printString fuel va n s = .ok (untilNul ((List.range n).map text)) s := by
  induction n generalizing fuel va text with
  | zero =>
    obtain ⟨fuel, rfl⟩ := Nat.exists_eq_succ_of_ne_zero (Nat.ne_of_gt hfuel)
    have hload := htext 0 (Nat.le_refl 0)
    rw [BitVec.add_zero] at hload
    rw [printString, bind_ok hload]
    by_cases hz : text 0 = 0
    · rw [if_pos hz]
      rfl
    · rw [if_neg hz]
      rfl
  | succ n ih =>
    obtain ⟨fuel, rfl⟩ := Nat.exists_eq_succ_of_ne_zero (Nat.ne_of_gt (Nat.zero_lt_of_lt hfuel))
    have hload := htext 0 (Nat.zero_le _)
    rw [BitVec.add_zero] at hload
    have hlist : (List.range (n + 1)).map text = text 0 :: (List.range n).map (fun k => text (k + 1)) := by
      rw [List.range_succ_eq_map, List.map_cons, List.map_map]
      rfl
    rw [printString, bind_ok hload, hlist]
    by_cases hz : text 0 = 0
    · rw [if_pos hz, hz, untilNul_nul]
      rfl
    · have hrest : printString fuel (va + 1) ((n : Int) + 1 - 1) s =
          .ok (untilNul ((List.range n).map fun k => text (k + 1))) s := by
        rw [Int.add_sub_cancel]
        refine ih (by omega) fun k hk => ?_
        rw [← htext (k + 1) (by omega), BitVec.add_assoc, Nat.add_comm k 1, BitVec.ofNat_add]
        rfl
      rw [if_neg hz, Nat.cast_succ, if_neg (by omega), if_pos (by omega), bind_ok hrest, untilNul_cons hz]
      rfl

/-- sys_cputs prints its part of the buffer up to the first NUL. -/
theorem cprintfString_ok (hbuf : buf ≠ 0) (hlen : len.toNat < 256)
    (htext : ∀ i < 256, s.byteAt s.cr3 (buf + BitVec.ofNat 32 i) = some (text i)) :
    cprintfString len.toInt buf s = .ok (untilNul ((List.range len.toNat).map text)) s := by
  have hint : len.toInt = len.toNat := BitVec.toInt_eq_toNat_of_lt (by omega)
  rw [cprintfString, if_neg hbuf, hint]
  exact printString_ok (by omega) fun k hk => loadByte_ok (htext k (by omega))

/-- A store to a data page moves no translation below UTOP. -/
theorem System.walk_poke (h : System m s L fl efl) (hd : d ∈ L.dirs) (hp : IsData s L p)
    (hva : pdx va < 955) : hwWalk (s.poke p off b).mem d va = hwWalk s.mem d va :=
  hwWalk_of_entries (pde_storeData hp hd) (pte_storeData hp hd (h.balanced.own_user d hd _ hva))

namespace OwnsBuffer

theorem below (h : OwnsBuffer m mem s e buf) (hi : i < 256) : pdx (buf + BitVec.ofNat 32 i) < 955 := by
  obtain ⟨L, fl, efl, hsys⟩ := h.run.system
  exact hsys.userCanWrite_lt (hsys.env_mem h.live h.pgdir) (h.write i hi)

theorem buf_lt (h : OwnsBuffer m mem s e buf) : buf.toNat < 955 * 2 ^ 22 := by
  have hlow := h.below (i := 0) (by omega)
  rw [BitVec.add_zero, pdx_eq] at hlow
  omega

theorem toNat_add (h : OwnsBuffer m mem s e buf) (hi : i < 256) :
    (buf + BitVec.ofNat 32 i).toNat = buf.toNat + i := by
  have hlt := h.buf_lt
  rw [BitVec.toNat_add, BitVec.toNat_ofNat]
  omega

/-- Two characters of the buffer lie at different offsets in their pages. -/
theorem pgoff_inj (h : OwnsBuffer m mem s e buf) (hi : i < 256) (hj : j < 256)
    (hoff : pgoff (buf + BitVec.ofNat 32 i) = pgoff (buf + BitVec.ofNat 32 j)) : i = j := by
  rw [pgoff_eq, pgoff_eq, h.toNat_add hi, h.toNat_add hj] at hoff
  omega

/-- A store to the buffer changes one of its characters. -/
theorem store (h : OwnsBuffer m mem s e buf) (hi : i < 256) (c : Byte) :
    ∃ t, storeByte (buf + BitVec.ofNat 32 i) c s = .ok () t ∧ OwnsBuffer m mem t e buf ∧
      ∀ j < 256, t.byteAt t.cr3 (buf + BitVec.ofNat 32 j) =
        if j = i then some c else s.byteAt s.cr3 (buf + BitVec.ofNat 32 j) := by
  obtain ⟨L, fl, efl, hsys⟩ := h.run.system
  have hdm := hsys.env_mem h.live h.pgdir
  obtain ⟨x, hx, -, hxw⟩ := h.write i hi
  obtain ⟨hdata, -⟩ := hsys.data _ hdm _ (h.below hi) _ (ptx_lt _) _ (hwWalk_eq_some.mp hx).1
  have hrun : storeByte (buf + BitVec.ofNat 32 i) c s = _ := storeByte_ok hx hxw
  have hwalk : ∀ j < 256, hwWalk (s.poke x.page (pgoff (buf + BitVec.ofNat 32 i)) c).mem s.cr3
      (buf + BitVec.ofNat 32 j) = hwWalk s.mem s.cr3 (buf + BitVec.ofNat 32 j) :=
    fun j hj => hsys.walk_poke hdm hdata (h.below hj)
  refine ⟨_, hrun, ⟨?_, h.cur, h.live, h.pgdir, ?_⟩, ?_⟩
  · exact h.run.call (c := .userStore _ c) ⟨e, h.cur, h.live, h.pgdir, h.write i hi⟩ hrun
  · intro j hj
    obtain ⟨y, hy, hrights⟩ := h.write j hj
    exact ⟨y, (hwalk j hj).trans hy, hrights⟩
  · intro j hj
    change (hwWalk _ s.cr3 _).map _ = _
    rw [hwalk j hj, Kernel.byteAt]
    by_cases hji : j = i
    · subst hji
      rw [if_pos rfl, hx, Option.map_some, pageByte_poke, if_pos ⟨rfl, rfl⟩]
    · obtain ⟨y, hy, -⟩ := h.write j hj
      rw [if_neg hji, hy, Option.map_some, Option.map_some, pageByte_poke,
        if_neg fun hc => hji (h.pgoff_inj hj hi hc.2)]

/-- user_mem_assert lets a part of the buffer pass. -/
theorem userMemAssert (h : OwnsBuffer m mem s e buf) (hlen : len.toNat ≤ 256) :
    Jos.userMemAssert e buf len pteU s = .ok () s := by
  obtain ⟨L, fl, efl, hsys⟩ := h.run.system
  have hlt := h.buf_lt
  have hlim : buf.toNat + len.toNat ≤ ulim.toNat := by
    rw [show ulim.toNat = 958 * 2 ^ 22 by decide]
    omega
  have hinst := hsys.installed (hsys.env_mem h.live h.pgdir)
  rcases userMemCheck_below h.pgdir hinst hlim (pteU ||| pteU) with ⟨-, hrun⟩ | ⟨a, ha, hfail, -⟩
  · rw [Jos.userMemAssert, bind_ok hrun]
    rfl
  · obtain ⟨k, hk, rfl⟩ := (inRange_iff (by omega)).mp ha
    obtain ⟨x, hx, hu, -⟩ := h.write k (by omega)
    exact absurd (System.passes_of_userCanRead ⟨x, hx, hu⟩) hfail

/-- The system call prints, and reports -E_NO_SYS. -/
theorem syscall (h : OwnsBuffer m mem s e buf) (hbuf : buf ≠ 0) (hlen : len.toNat < 256)
    (htext : ∀ i < 256, s.byteAt s.cr3 (buf + BitVec.ofNat 32 i) = some (text i)) (w : Outside) :
    s.prints buf len = untilNul ((List.range len.toNat).map text) ∧
      Jos.syscall w sysCputsNo buf len 0 0 0 s = .ok (BitVec.ofInt 32 (-eNoSys)) s := by
  have hassert := h.userMemAssert (Nat.le_of_lt hlen)
  have hprint := cprintfString_ok hbuf hlen htext
  constructor
  · have hrun : sysCputs buf len s = .ok (untilNul ((List.range len.toNat).map text)) s := by
      rw [sysCputs, bind_ok (read_apply s), h.cur]
      simp only [deref]
      rw [bind_ok (pure_apply e s), bind_ok hassert]
      exact hprint
    rw [Kernel.prints, hrun]
  · rw [syscall_cputs h.cur, bind_ok hassert, bind_ok hprint]
    rfl

end OwnsBuffer

/-- The recorder's view of the kernel: the same buffer, and the calls with their text cut at a NUL. -/
structure Recorded (m : Machine) (mem : Nat → Nat → Word) (e : Nat) (buf : Word) (a : Recording)
    (s : Host) : Prop where
  owns : OwnsBuffer m mem s.kern e buf
  text : ∀ i < 256, s.kern.byteAt s.kern.cr3 (buf + BitVec.ofNat 32 i) = some (a.buf i)
  calls : s.calls = a.calls.map fun c => ⟨untilNul c, BitVec.ofInt 32 (-eNoSys)⟩

theorem lib_records (hbuf : buf ≠ 0) : (Host.lib w buf).Records (Recorded m mem e buf) where
  store i c a s hr hi := by
    obtain ⟨t, hrun, howns, htext⟩ := hr.owns.store hi c
    rw [BitVec.ofNat_toNat, BitVec.setWidth_eq] at hrun
    refine ⟨_, onKern_ok hrun, howns, fun j hj => ?_, hr.calls⟩
    change _ = some (Function.update a.buf i.toNat c j)
    rw [htext j hj, Function.update_apply]
    by_cases hji : j = i.toNat
    · rw [if_pos hji, if_pos hji]
    · rw [if_neg hji, if_neg hji, hr.text j hj]
  sysCputs n a s hr hn := by
    obtain ⟨hprints, hrun⟩ := hr.owns.syscall hbuf hn hr.text w
    refine ⟨{ s with calls := s.calls ++ [⟨s.kern.prints buf n, BitVec.ofInt 32 (-eNoSys)⟩] }, ?_,
      hr.owns, hr.text, ?_⟩
    · change (Prog.read >>= fun u => Host.onKern _ >>= _) s = _
      rw [bind_ok (read_apply s), bind_ok (onKern_ok hrun)]
      rfl
    · rw [hr.calls, hprints, List.map_append]
      rfl

/-- The user library in a reachable state. -/
theorem output_arrivesUpToNul (h : OwnsBuffer m mem s e buf) (hbuf : buf ≠ 0) (w : Outside) (b : Printbuf)
    (ws : List Word) : ArrivesUpToNul w buf s b ws := by
  have hstart : Recorded m mem e buf
      ⟨fun i => (s.byteAt s.cr3 (buf + BitVec.ofNat 32 i)).getD 0, []⟩ ⟨s, []⟩ := by
    refine ⟨h, fun i hi => ?_, rfl⟩
    obtain ⟨x, hx, -⟩ := h.write i hi
    change s.byteAt s.cr3 (buf + BitVec.ofNat 32 i) = some ((s.byteAt s.cr3 (buf + BitVec.ofNat 32 i)).getD 0)
    rw [Kernel.byteAt, hx]
    rfl
  obtain ⟨cnt, a, ⟨b', t⟩, hrun, hr, htaken, hne, -⟩ :=
    (lib_records hbuf (w := w)).session (s := (b, ⟨s, []⟩)) ws hstart rfl
  refine ⟨cnt, b', t, hrun, ?_, ?_, ?_⟩
  · have hprinted : t.printed = a.calls.flatMap untilNul := by
      rw [Host.printed, hr.calls, List.flatMap_map]
    rw [hprinted, ← htaken, flatMap_untilNul_eq_iff, htaken]
    simp only [List.mem_map, forall_exists_index, and_imp, forall_apply_eq_imp_iff₂]
  · rw [hr.calls]
    exact fun hnil => hne (List.map_eq_nil_iff.mp hnil)
  · intro call hcall
    rw [hr.calls] at hcall
    obtain ⟨c, -, rfl⟩ := List.mem_map.mp hcall
    rfl

theorem ArrivesUpToNul.not_unchanged (h : ArrivesUpToNul w buf s pb ws) :
    ¬ ArrivesUnchanged w buf s pb ws := by
  obtain ⟨cnt, b', t, hrun, -, hne, hall⟩ := h
  rintro ⟨cnt', b'', t', hrun', -, hok⟩
  rw [hrun] at hrun'
  cases hrun'
  obtain ⟨call, rest, hcalls⟩ := List.exists_cons_of_ne_nil hne
  have hmem : call ∈ t.calls := by
    rw [hcalls]
    exact List.mem_cons_self
  have hresult := hok call hmem
  rw [hall call hmem] at hresult
  exact absurd hresult (by decide)

/-- Every system call for the output of a user program reports -E_NO_SYS; the output arrives if it has
no NUL byte in it. -/
theorem userOutput_arrives (h : OwnsBuffer m mem s e buf) (hbuf : buf ≠ 0) (w : Outside) (b : Printbuf)
    (ws : List Word) : ¬ ArrivesUnchanged w buf s b ws ∧ ArrivesUpToNul w buf s b ws := by
  have harrives := output_arrivesUpToNul h hbuf w b ws
  exact ⟨harrives.not_unchanged, harrives⟩

/-- On the small machine, an environment without segments that runs on its initial stack. -/
theorem ownsBuffer_smallMachine : ∃ s e, OwnsBuffer smallMachine (fun _ _ => 0) s e (ustacktop - pgsize) := by
  obtain ⟨s₀, s, t, e, d, h₀, h₁, hbelow, ht, hl, hd, hstack⟩ := bareEnv_smallMachine
  have hrun : SysRun smallMachine (fun _ _ => 0) t :=
    SysRun.call (.start h₀ h₁) (c := .envCreate bareImage .user) hbelow ht
  obtain ⟨v, hv, hcr⟩ := envRun_returns hd
  obtain ⟨-, hcur, henvs⟩ := envRun_effect hv
  have hmem : v.mem = t.mem := congrArg (·.2.2.2.1) (envRun_keeps e _ _ _ hv)
  refine ⟨v, e, hrun.call (c := .envRun e) hl hv, hcur, ⟨hl.1, ?_⟩, ?_, ?_⟩
  · rw [henvs, Function.update_self]
    simp
  · rw [henvs, Function.update_self, hcr]
    change (t.preempt.envs e).envPgdir = _
    rw [preempt_envs, ← hd]
  · intro i hi
    have hpage : (ustacktop - pgsize).toNat + 4096 = ustacktop.toNat := by decide
    have htop := ustacktop.isLt
    rw [hcr, hmem]
    apply hstack
    · rw [BitVec.le_def, BitVec.toNat_add, BitVec.toNat_ofNat]
      omega
    · rw [BitVec.lt_def, BitVec.toNat_add, BitVec.toNat_ofNat]
      omega

end output

theorem userOutput_arrives_smallMachine : ∃ s e, OwnsBuffer smallMachine (fun _ _ => 0) s e (ustacktop - pgsize) ∧
    ¬ ArrivesUnchanged ⟨[], 0⟩ (ustacktop - pgsize) s ⟨0, 0⟩ [120] ∧
      ArrivesUpToNul ⟨[], 0⟩ (ustacktop - pgsize) s ⟨0, 0⟩ [120] := by
  obtain ⟨s, e, h⟩ := ownsBuffer_smallMachine
  exact ⟨s, e, h, userOutput_arrives h (by decide) ⟨[], 0⟩ ⟨0, 0⟩ [120]⟩

/-- The output "x" arrives, but its system call reports -E_NO_SYS. -/
theorem not_arrivesUnchanged : ¬ ∀ (m : Machine) (mem : Nat → Nat → Word) (s : Kernel) (e : Nat)
    (buf : Word) (w : Outside) (b : Printbuf) (ws : List Word), OwnsBuffer m mem s e buf → buf ≠ 0 →
    ArrivesUnchanged w buf s b ws := by
  intro hall
  obtain ⟨s, e, h⟩ := ownsBuffer_smallMachine
  have harrives := hall _ _ s e _ ⟨[], 0⟩ ⟨0, 0⟩ [120] h (by decide)
  exact (output_arrivesUpToNul h (by decide) ⟨[], 0⟩ ⟨0, 0⟩ [120]).not_unchanged harrives

end Jos
