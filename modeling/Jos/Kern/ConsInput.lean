import Jos.Library.Prog
import Jos.Library.RingBuf
import Jos.Kern.Keyboard

/-! Console input (kern/console.c): the buffer that the serial port and the keyboard fill, and
cons_getc. -/
namespace Jos

open Prog RingBuf

def consbufsize : Nat := 512

/-- The console input buffer. -/
structure Cons where
  buf : Nat → Byte
  rpos : Word
  wpos : Word

/-- An index outside the buffer, or a device that never has done. -/
inductive ConsFault where
  | badIndex (i : Nat)
  | spins
deriving DecidableEq

/-- The index behind `pos`, in the circle. -/
def consNext (pos : Word) : Word := if pos + 1 = BitVec.ofNat 32 consbufsize then 0 else pos + 1

/-- `cons.buf[cons.wpos++] = c`, with the test behind it. -/
def consPut (c : Word) : Prog ConsFault Cons Unit := do
  let s ← read
  check (.badIndex s.wpos.toNat) (s.wpos.toNat < consbufsize)
  update fun s => { s with
    buf := Function.update s.buf s.wpos.toNat (c.setWidth 8)
    wpos := consNext s.wpos }

/-- cons_intr, for a device procedure that turns one state of the device into the next; for at most
the given number of calls of it. -/
def consIntr {δ : Type} (proc : δ → Word × δ) : Nat → δ → Prog ConsFault Cons δ
  | 0, _ => stop .spins
  | rounds + 1, d =>
    if (proc d).1 = -1 then
      pure (proc d).2
    else if (proc d).1 = 0 then
      consIntr proc rounds (proc d).2
    else do
      consPut (proc d).1
      consIntr proc rounds (proc d).2

/-- serial_proc_data, on the characters that the port has received. -/
def serialProcData : List Byte → Word × List Byte
  | [] => (-1, [])
  | c :: rx => (c.setWidth 32, rx)

/-- The devices, at the time of a poll. -/
structure Devices where
  serialExists : Bool
  rx : List Byte
  kbd : Kbd

def serialIntr (d : Devices) : Prog ConsFault Cons Devices :=
  if d.serialExists then do
    let rx ← consIntr serialProcData (d.rx.length + 1) d.rx
    pure { d with rx := rx }
  else
    pure d

def kbdIntr (d : Devices) : Prog ConsFault Cons Devices := do
  let kbd ← consIntr kbdProcData (d.kbd.data.length + 1) d.kbd
  pure { d with kbd := kbd }

/-- `if (cons.rpos != cons.wpos)`: the next character of the buffer, or 0. -/
def consTake : Prog ConsFault Cons Word := do
  let s ← read
  if s.rpos ≠ s.wpos then do
    check (.badIndex s.rpos.toNat) (s.rpos.toNat < consbufsize)
    update fun s => { s with rpos := consNext s.rpos }
    pure ((s.buf s.rpos.toNat).setWidth 32)
  else
    pure 0

/-- cons_getc, with what the devices have at that time. -/
def consGetc (d : Devices) : Prog ConsFault Cons (Word × Devices) := do
  let d ← serialIntr d
  let d ← kbdIntr d
  let c ← consTake
  pure (c, d)

/-! What the devices deliver. -/

/-- The device procedure answers these characters, one by one, and then that there is no more. -/
inductive Yields {δ : Type} (proc : δ → Word × δ) : δ → List Byte → δ → Prop
  | done {d : δ} (h : (proc d).1 = -1) : Yields proc d [] (proc d).2
  | more {d d' : δ} {c : Byte} {cs : List Byte} (h : (proc d).1 = c.setWidth 32)
    (hrest : Yields proc (proc d).2 cs d') : Yields proc d (c :: cs) d'

/-- The characters put in the buffer: a 0 is dropped. -/
def delivered (cs : List Byte) : List (Item Byte) := (cs.filter (· ≠ 0)).map Item.put

/-- What a call of cons_getc has shown. -/
def answered (c : Word) : Item Byte := if c = 0 then .none else .got (c.setWidth 8)

/-- What the devices deliver when cons_getc polls them. -/
inductive Polls (d : Devices) : List Byte → Prop
  | both {rx : List Byte} {kbd : Kbd} {cs ks : List Byte} (h : d.serialExists = true)
    (hs : Yields serialProcData d.rx cs rx) (hk : Yields kbdProcData d.kbd ks kbd) : Polls d (cs ++ ks)
  | keyboard {kbd : Kbd} {ks : List Byte} (h : d.serialExists = false)
    (hk : Yields kbdProcData d.kbd ks kbd) : Polls d ks

/-- Interrupts of any devices and calls of cons_getc, from the empty buffer on, and everything that
was delivered and returned. -/
inductive ConsRun : Cons → List (Item Byte) → Prop
  | start {s : Cons} (hr : s.rpos = 0) (hw : s.wpos = 0) : ConsRun s []
  | intr {s s' : Cons} {h : List (Item Byte)} {δ : Type} {proc : δ → Word × δ} {d d' : δ}
    {cs : List Byte} {rounds : Nat} (hrun : ConsRun s h) (hyields : Yields proc d cs d')
    (hrounds : cs.length < rounds) (hintr : consIntr proc rounds d s = .ok d' s') :
    ConsRun s' (h ++ delivered cs)
  | getc {s s' : Cons} {h : List (Item Byte)} {d d' : Devices} {cs : List Byte} {c : Word}
    (hrun : ConsRun s h) (hpoll : Polls d cs) (hgetc : consGetc d s = .ok (c, d') s') :
    ConsRun s' (h ++ delivered cs ++ [answered c])

/-- The buffer as a ring. -/
def Cons.ring (s : Cons) : RingBuf Byte := ⟨s.buf, s.rpos.toNat, s.wpos.toNat⟩

section steps

variable {δ : Type} {proc : δ → Word × δ} {d d' : δ} {s : Cons} {h : List (Item Byte)} {c : Byte}
  {cs : List Byte} {rounds : Nat} {pos w : Word} {k : Kbd} {dev : Devices}

theorem toNat_consNext (hpos : pos.toNat < consbufsize) :
    (consNext pos).toNat = next consbufsize pos.toNat := by
  have hsize : consbufsize = 512 := rfl
  have hsucc : (pos + 1).toNat = pos.toNat + 1 := by
    have hone : (1 : Word).toNat = 1 := rfl
    rw [BitVec.toNat_add, hone]
    omega
  have hiff : pos + 1 = BitVec.ofNat 32 consbufsize ↔ pos.toNat + 1 = consbufsize := by
    rw [← BitVec.toNat_inj, hsucc]
    rfl
  rw [consNext, next]
  by_cases heq : pos.toNat + 1 = consbufsize
  · rw [if_pos (hiff.mpr heq), if_pos heq]
    rfl
  · rw [if_neg (fun h => heq (hiff.mp h)), if_neg heq, hsucc]

/-- Putting a character in the buffer puts it in the ring. -/
theorem consPut_ok (hw : s.wpos.toNat < consbufsize) :
    ∃ s', consPut w s = .ok () s' ∧ s'.ring = s.ring.put consbufsize (w.setWidth 8) := by
  refine ⟨{ s with
    buf := Function.update s.buf s.wpos.toNat (w.setWidth 8)
    wpos := consNext s.wpos }, ?_, ?_⟩
  · rw [consPut, bind_ok (read_apply s), bind_ok (check_true hw s), update_apply]
  · rw [Cons.ring, toNat_consNext hw]
    rfl

theorem char_ne_neg_one : c.setWidth 32 ≠ (-1 : Word) := by
  intro heq
  have hnat := congrArg BitVec.toNat heq
  have hlt := c.isLt
  have hm : (-1 : Word).toNat = 2 ^ 32 - 1 := rfl
  rw [BitVec.toNat_setWidth, hm] at hnat
  omega

theorem delivered_zero : delivered (0 :: cs) = delivered cs := rfl

theorem delivered_cons (hc : c ≠ 0) : delivered (c :: cs) = .put c :: delivered cs := by
  rw [delivered, List.filter_cons_of_pos (by simpa using hc), List.map_cons]
  rfl

theorem delivered_append (cs ks : List Byte) : delivered (cs ++ ks) = delivered cs ++ delivered ks := by
  rw [delivered, List.filter_append, List.map_append]
  rfl

/-- cons_intr puts the characters of the burst in the ring, in order. -/
theorem consIntr_ok (hyields : Yields proc d cs d') (hrounds : cs.length < rounds)
    (hring : Run consbufsize s.ring h) :
    ∃ s', consIntr proc rounds d s = .ok d' s' ∧ Run consbufsize s'.ring (h ++ delivered cs) := by
  induction hyields generalizing s h rounds with
  | done hc =>
    obtain ⟨rounds, rfl⟩ : ∃ n, rounds = n + 1 := ⟨rounds - 1, by omega⟩
    refine ⟨s, ?_, by rwa [delivered, List.filter_nil, List.map_nil, List.append_nil]⟩
    rw [consIntr, if_pos hc]
    rfl
  | @more d d' c cs hc hrest ih =>
    obtain ⟨rounds, rfl⟩ : ∃ n, rounds = n + 1 := ⟨rounds - 1, by omega⟩
    have hgoes : (proc d).1 ≠ -1 := hc ▸ char_ne_neg_one
    have hzero : (proc d).1 = 0 ↔ c = 0 := hc ▸ setWidth_char_inj (d := 0)
    rw [consIntr, if_neg hgoes]
    by_cases h0 : c = 0
    · rw [if_pos (hzero.mpr h0), h0, delivered_zero]
      exact ih (Nat.lt_of_succ_lt_succ hrounds) hring
    · obtain ⟨s', hput, hs'⟩ := consPut_ok (w := (proc d).1) (hring.lt (by decide)).2
      have hring' : Run consbufsize s'.ring (h ++ [.put c]) := by
        rw [hs', hc, setWidth_char]
        exact .put hring c
      obtain ⟨s'', hrun, hr⟩ := ih (Nat.lt_of_succ_lt_succ hrounds) hring'
      refine ⟨s'', ?_, ?_⟩
      · rw [if_neg (fun h => h0 (hzero.mp h)), bind_ok hput, hrun]
      · rw [delivered_cons h0]
        rwa [List.append_assoc, List.singleton_append] at hr

/-! The two devices. -/

theorem yields_serial (rx : List Byte) : Yields serialProcData rx rx [] := by
  induction rx with
  | nil => exact .done (show (serialProcData []).1 = -1 from rfl)
  | cons c rx ih => exact .more (show (serialProcData (c :: rx)).1 = c.setWidth 32 from rfl) ih

/-- With codes to read, kbd_proc_data reads one and answers a character, or 0. -/
theorem kbdProcData_answer {data : Byte} {rest : List Byte} (hdata : k.data = data :: rest) :
    (∃ c : Byte, (kbdProcData k).1 = c.setWidth 32) ∧ (kbdProcData k).2.data = rest := by
  have hmake : ∀ (k : Kbd) (data : Byte), (∃ c : Byte, (kbdMake k data).1 = c.setWidth 32) ∧
      (kbdMake k data).2.data = k.data := by
    intro k data
    unfold kbdMake
    dsimp only
    split <;> exact ⟨⟨_, rfl⟩, rfl⟩
  unfold kbdProcData
  rw [hdata]
  dsimp only
  split
  · exact ⟨⟨0, rfl⟩, rfl⟩
  · split
    · exact ⟨⟨0, rfl⟩, rfl⟩
    · split
      · exact hmake _ _
      · exact hmake _ _

theorem yields_kbd (k : Kbd) : ∃ ks k', Yields kbdProcData k ks k' ∧ ks.length = k.data.length := by
  generalize hdata : k.data = data
  induction data generalizing k with
  | nil =>
    have hnone : (kbdProcData k).1 = -1 := by rw [kbdProcData, hdata]
    exact ⟨[], _, .done hnone, rfl⟩
  | cons data rest ih =>
    obtain ⟨⟨c, hc⟩, hrest⟩ := kbdProcData_answer hdata
    obtain ⟨ks, k', hyields, hlen⟩ := ih _ hrest
    exact ⟨c :: ks, k', .more hc hyields, by rw [List.length_cons, List.length_cons, hlen]⟩

/-- Whatever the devices hold, the poll ends and has put what they deliver in the ring. -/
theorem poll_ok (dev : Devices) (hring : Run consbufsize s.ring h) :
    ∃ cs dev' s', Polls dev cs ∧ (serialIntr dev >>= kbdIntr) s = .ok dev' s' ∧
      Run consbufsize s'.ring (h ++ delivered cs) := by
  obtain ⟨ks, kbd', hk, hlen⟩ := yields_kbd dev.kbd
  cases hser : dev.serialExists with
  | true =>
    have hs := yields_serial dev.rx
    obtain ⟨s₁, hserial, hring₁⟩ := consIntr_ok hs (Nat.lt_succ_self _) hring
    obtain ⟨s₂, hkbd, hring₂⟩ := consIntr_ok hk (by rw [hlen]; exact Nat.lt_succ_self _) hring₁
    refine ⟨dev.rx ++ ks, ⟨true, [], kbd'⟩, s₂, .both hser hs hk, ?_, ?_⟩
    · have h1 : serialIntr dev s = .ok { dev with rx := [] } s₁ := by
        rw [serialIntr, if_pos hser, bind_ok hserial, pure_apply]
      rw [bind_ok h1, kbdIntr, bind_ok hkbd, pure_apply, ← hser]
    · rwa [delivered_append, ← List.append_assoc]
  | false =>
    obtain ⟨s', hkbd, hring'⟩ := consIntr_ok hk (by rw [hlen]; exact Nat.lt_succ_self _) hring
    refine ⟨ks, { dev with kbd := kbd' }, s', .keyboard hser hk, ?_, hring'⟩
    have h1 : serialIntr dev s = .ok dev s := by
      rw [serialIntr, if_neg (by rw [hser]; exact Bool.false_ne_true), pure_apply]
    rw [bind_ok h1, kbdIntr, bind_ok hkbd, pure_apply]

/-- What is taken from the buffer is read from the ring. -/
theorem consTake_ok (hring : Run consbufsize s.ring h) (hchars : ∀ c ∈ puts h, c ≠ 0) :
    ∃ c s', consTake s = .ok c s' ∧ Run consbufsize s'.ring (h ++ [answered c]) := by
  have hlt : s.rpos.toNat < consbufsize := (hring.lt (by decide)).1
  have hempty : s.ring.rpos = s.ring.wpos ↔ s.rpos = s.wpos := BitVec.toNat_inj
  by_cases hne : s.rpos ≠ s.wpos
  · have hget : s.ring.get consbufsize =
        some (s.buf s.rpos.toNat, ⟨s.buf, next consbufsize s.rpos.toNat, s.wpos.toNat⟩) := by
      rw [RingBuf.get, if_neg (fun heq => hne (hempty.mp heq))]
      rfl
    have hrun := Run.got hring hget
    have hmem : s.buf s.rpos.toNat ∈ puts h := by
      have hsub := (hrun.sublist (by decide)).subset
      rw [gots_got, puts_got] at hsub
      exact hsub (List.mem_append_right _ (List.mem_singleton_self _))
    have hc := hchars _ hmem
    refine ⟨(s.buf s.rpos.toNat).setWidth 32, { s with rpos := consNext s.rpos }, ?_, ?_⟩
    · rw [consTake, bind_ok (read_apply s), if_pos hne, bind_ok (check_true hlt s)]
      rfl
    · have hanswer : (s.buf s.rpos.toNat).setWidth 32 ≠ (0 : Word) :=
        fun h0 => hc ((setWidth_char_inj (d := 0)).mp h0)
      rw [answered, if_neg hanswer, setWidth_char, Cons.ring, toNat_consNext hlt]
      exact hrun
  · have hget : s.ring.get consbufsize = none := by
      rw [RingBuf.get, if_pos (hempty.mpr (not_not.mp hne))]
    refine ⟨0, s, ?_, .none hring hget⟩
    rw [consTake, bind_ok (read_apply s), if_neg hne]
    rfl

end steps

/-! Whole runs. -/

section run

variable {s : Cons} {h : List (Item Byte)} {d d' : Devices} {cs ks : List Byte} {c : Byte}

theorem puts_delivered (cs : List Byte) : puts (delivered cs) = cs.filter (· ≠ 0) := by
  rw [puts, delivered, List.filterMap_map]
  exact List.filterMap_some

theorem puts_append (h h' : List (Item Byte)) : puts (h ++ h') = puts h ++ puts h' := List.filterMap_append ..

theorem nonzero_of_delivered (hchars : ∀ c ∈ puts h, c ≠ 0) : ∀ c ∈ puts (h ++ delivered cs), c ≠ 0 := by
  intro c hc
  rw [puts_append, puts_delivered, List.mem_append, List.mem_filter] at hc
  rcases hc with hc | ⟨-, hc⟩
  · exact hchars c hc
  · simpa using hc

/-- The answers of a device are what it holds. -/
theorem Yields.unique {δ : Type} {proc : δ → Word × δ} {d d₁ d₂ : δ} (h₁ : Yields proc d cs d₁)
    (h₂ : Yields proc d ks d₂) : cs = ks ∧ d₁ = d₂ := by
  induction h₁ generalizing ks with
  | done hc =>
    cases h₂ with
    | done _ => exact ⟨rfl, rfl⟩
    | more hc' _ => exact absurd (hc'.symm.trans hc) char_ne_neg_one
  | more hc _ ih =>
    cases h₂ with
    | done hc' => exact absurd (hc.symm.trans hc') char_ne_neg_one
    | more hc' hrest =>
      obtain ⟨rfl, rfl⟩ := ih hrest
      exact ⟨by rw [setWidth_char_inj.mp (hc.symm.trans hc')], rfl⟩

theorem Polls.unique (h₁ : Polls d cs) (h₂ : Polls d ks) : cs = ks := by
  cases h₁ with
  | both hser hs hk =>
    cases h₂ with
    | both _ hs' hk' => rw [(hs.unique hs').1, (hk.unique hk').1]
    | keyboard hser' _ =>
      rw [hser] at hser'
      cases hser'
  | keyboard hser hk =>
    cases h₂ with
    | both hser' _ _ =>
      rw [hser] at hser'
      cases hser'
    | keyboard _ hk' => exact (hk.unique hk').1

/-- cons_getc, whatever the devices hold. -/
theorem consGetc_ok (hring : Run consbufsize s.ring h) (hchars : ∀ c ∈ puts h, c ≠ 0) (hpoll : Polls d cs) :
    ∃ c d' s', consGetc d s = .ok (c, d') s' ∧
      Run consbufsize s'.ring (h ++ delivered cs ++ [answered c]) := by
  obtain ⟨ks, d', s₁, hpoll', hrun, hring₁⟩ := poll_ok d hring
  obtain rfl := hpoll.unique hpoll'
  obtain ⟨c, s₂, htake, hring₂⟩ := consTake_ok hring₁ (nonzero_of_delivered hchars)
  refine ⟨c, d', s₂, ?_, hring₂⟩
  obtain ⟨d₁, t, hserial, hkbd⟩ := bind_eq_ok.mp hrun
  rw [consGetc, bind_ok hserial, bind_ok hkbd, bind_ok htake]
  rfl

/-- Every run of the buffer is one of the ring, with no 0 in it. -/
theorem ConsRun.ring (hrun : ConsRun s h) : Run consbufsize s.ring h ∧ ∀ c ∈ puts h, c ≠ 0 := by
  induction hrun with
  | start hr hw =>
    refine ⟨.start (congrArg BitVec.toNat hr) (congrArg BitVec.toNat hw), fun c hc => ?_⟩
    exact absurd hc List.not_mem_nil
  | intr _ hyields hrounds hintr ih =>
    obtain ⟨s'', hok, hring⟩ := consIntr_ok hyields hrounds ih.1
    rw [hintr] at hok
    cases hok
    exact ⟨hring, nonzero_of_delivered ih.2⟩
  | @getc _ _ h _ _ cs c _ hpoll hgetc ih =>
    obtain ⟨c', d'', s'', hok, hring⟩ := consGetc_ok ih.1 ih.2 hpoll
    rw [hgetc] at hok
    cases hok
    refine ⟨hring, ?_⟩
    have hputs : puts (h ++ delivered cs ++ [answered c]) = puts (h ++ delivered cs) := by
      unfold answered
      split
      · exact puts_none
      · exact puts_got
    rw [hputs]
    exact nonzero_of_delivered ih.2

end run

/-- The console input is a queue, as far as its buffer allows. -/
structure ConsSound (s : Cons) (h : List (Item Byte)) : Prop where
  rpos : s.rpos.toNat < consbufsize
  wpos : s.wpos.toNat < consbufsize
  /-- cons_intr returns, for every device that ends its burst -/
  intr : ∀ {δ : Type} (proc : δ → Word × δ) (d d' : δ) (cs : List Byte) (rounds : Nat),
    Yields proc d cs d' → cs.length < rounds → ∃ s', consIntr proc rounds d s = .ok d' s'
  /-- cons_getc returns, whatever the serial port and the keyboard hold -/
  getc : ∀ d : Devices, ∃ cs c d' s', Polls d cs ∧ consGetc d s = .ok (c, d') s'
  /-- what is returned was delivered, in the same order -/
  ordered : (gots h).Sublist (puts h)
  /-- nothing is lost while no more is unread than there is room for -/
  kept : Fits consbufsize h → gots h <+: puts h
  /-- and 0 is returned only when everything has been read -/
  empty : Fits consbufsize h → ∀ h', h = h' ++ [.none] → gots h = puts h

/-- Every run of interrupts and calls of cons_getc. -/
theorem consRun_sound {s : Cons} {h : List (Item Byte)} (hrun : ConsRun s h) : ConsSound s h := by
  obtain ⟨hring, hchars⟩ := hrun.ring
  have hpos : 0 < consbufsize := by decide
  refine ⟨(hring.lt hpos).1, (hring.lt hpos).2, ?_, ?_, hring.sublist hpos, ?_, ?_⟩
  · intro δ proc d d' cs rounds hyields hrounds
    obtain ⟨s', hok, -⟩ := consIntr_ok hyields hrounds hring
    exact ⟨s', hok⟩
  · intro d
    obtain ⟨cs, _, _, hpoll, -, -⟩ := poll_ok d hring
    obtain ⟨c, d', s', hok, -⟩ := consGetc_ok hring hchars hpoll
    exact ⟨cs, c, d', s', hpoll, hok⟩
  · intro hfits
    obtain ⟨-, heq⟩ := hring.queue hpos hfits
    rw [heq]
    exact List.take_prefix _ _
  · rintro hfits h' rfl
    rw [gots_none, puts_none]
    exact hring.none_empty hpos (hfits.mono (List.prefix_append _ _))

/-- An 'a' at the serial port, read, and then nothing. -/
theorem consRun_sound_a : ∃ s, ConsSound s [.put 97, .got 97, .none] := by
  have h0 : ConsRun ⟨fun _ => 0, 0, 0⟩ [] := .start rfl rfl
  have hk : Yields kbdProcData ⟨0, [], 0⟩ [] ⟨0, [], 0⟩ :=
    .done (show (kbdProcData ⟨0, [], 0⟩).1 = -1 from rfl)
  have hfull : Polls ⟨true, [97], ⟨0, [], 0⟩⟩ ([97] ++ []) := .both rfl (yields_serial [97]) hk
  have hempty : Polls ⟨false, [], ⟨0, [], 0⟩⟩ [] := .keyboard rfl hk
  have h1 := h0.getc (c := 97) hfull rfl
  have h2 := h1.getc (c := 0) hempty rfl
  exact ⟨_, consRun_sound h2⟩

end Jos
