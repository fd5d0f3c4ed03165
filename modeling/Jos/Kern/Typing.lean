import Jos.Kern.ConsInput
import Jos.Kern.KeysHeld

/-! From the keys to the characters cons_getc returns (kern/console.c), however the codes, the
interrupts and the calls come one after the other. -/
namespace Jos

open Prog RingBuf

/-- The characters kbd_proc_data makes of some codes, and the state word it leaves. -/
def kbdDecode (w : Word) : List Byte → List Byte × Word
  | [] => ([], w)
  | data :: rest =>
    let r := kbdProcData ⟨w, [data], 0⟩
    let more := kbdDecode r.2.shift rest
    (if r.1 = 0 then more.1 else r.1.setWidth 8 :: more.1, more.2)

/-- The input buffer and the devices. -/
structure Terminal where
  cons : Cons
  dev : Devices

/-- The codes sent so far, and what the calls of cons_getc have returned. Only the keyboard is used,
and never more is typed ahead than the buffer has room for. -/
inductive TypeRun : Terminal → List Byte → List Byte → Prop
  | start {t : Terminal} (hr : t.cons.rpos = 0) (hw : t.cons.wpos = 0) (hrx : t.dev.rx = [])
    (hshift : t.dev.kbd.shift = 0) (hdata : t.dev.kbd.data = []) : TypeRun t [] []
  | code {t : Terminal} {sent got : List Byte} {code : Byte} (hrun : TypeRun t sent got)
    (hroom : (kbdDecode 0 (sent ++ [code])).1.length < (got.filter (· ≠ 0)).length + consbufsize) :
    TypeRun { t with dev := { t.dev with kbd := { t.dev.kbd with data := t.dev.kbd.data ++ [code] } } }
      (sent ++ [code]) got
  | intr {t : Terminal} {sent got : List Byte} {dev : Devices} {cons : Cons} (hrun : TypeRun t sent got)
    (hintr : kbdIntr t.dev t.cons = .ok dev cons) : TypeRun ⟨cons, dev⟩ sent got
  | getc {t : Terminal} {sent got : List Byte} {c : Word} {dev : Devices} {cons : Cons}
    (hrun : TypeRun t sent got) (hgetc : consGetc t.dev t.cons = .ok (c, dev) cons) :
    TypeRun ⟨cons, dev⟩ sent (got ++ [c.setWidth 8])

/-! What is typed. -/

/-- The character of a key. -/
def Key.char (shift ctl caps : Bool) (k : Key) : Byte :=
  let c := if ctl then ctlmap k.index else if shift then shiftmap k.index else normalmap k.index
  if caps then
    if chr 'a' ≤ c ∧ c ≤ chr 'z' then
      c + (chr 'A' - chr 'a')
    else if chr 'A' ≤ c ∧ c ≤ chr 'Z' then
      c + (chr 'a' - chr 'A')
    else
      c
  else
    c

/-- What the last event types, after the others: a press types the character its key has with the
modifiers last pressed, if it has one. -/
def typedBy (es : List KeyEvent) : KeyEvent → List Byte
  | .press k =>
    let now := es ++ [.press k]
    let c := k.char (latest Modifier.shift.isKey now) (latest Modifier.ctl.isKey now)
      (Toggle.capslock.presses now % 2 = 1)
    if c = 0 then [] else [c]
  | .release _ => []

/-- The text typed by key events. -/
def typedText : List KeyEvent → List KeyEvent → List Byte
  | _, [] => []
  | before, e :: es => typedBy before e ++ typedText (before ++ [e]) es

section decode

variable {k k' : Kbd} {w : Word} {data : Byte} {rest cs cs' : List Byte} {es : List KeyEvent} {e : KeyEvent}

/-- A call of kbd_proc_data looks at one code and the state word. -/
theorem kbdProcData_one (hdata : k.data = data :: rest) :
    (kbdProcData k).1 = (kbdProcData ⟨k.shift, [data], 0⟩).1 ∧
    (kbdProcData k).2.shift = (kbdProcData ⟨k.shift, [data], 0⟩).2.shift := by
  have hmake : ∀ (k k' : Kbd) (data : Byte), k.shift = k'.shift →
      (kbdMake k data).1 = (kbdMake k' data).1 ∧ (kbdMake k data).2.shift = (kbdMake k' data).2.shift := by
    intro k k' data heq
    unfold kbdMake
    rw [heq]
    dsimp only
    split <;> exact ⟨rfl, rfl⟩
  unfold kbdProcData
  rw [hdata]
  dsimp only
  split
  · exact ⟨rfl, rfl⟩
  · split
    · exact ⟨rfl, rfl⟩
    · split
      · exact hmake _ _ _ rfl
      · exact hmake _ _ _ rfl

/-- What a burst of the keyboard delivers. -/
theorem yields_decode (h : Yields kbdProcData k cs k') : cs.filter (· ≠ 0) = (kbdDecode k.shift k.data).1 ∧
    k'.shift = (kbdDecode k.shift k.data).2 ∧ k'.data = [] := by
  induction h with
  | @done k hdone =>
    cases hdata : k.data with
    | nil =>
      have hsame : (kbdProcData k).2 = k := by rw [kbdProcData, hdata]
      rw [hsame]
      exact ⟨rfl, rfl, hdata⟩
    | cons data rest =>
      obtain ⟨⟨c, hc⟩, -⟩ := kbdProcData_answer hdata
      exact absurd (hc.symm.trans hdone) char_ne_neg_one
  | @more k k' c cs hc hrest ih =>
    cases hdata : k.data with
    | nil =>
      have hnone : (kbdProcData k).1 = -1 := by rw [kbdProcData, hdata]
      exact absurd (hc.symm.trans hnone) char_ne_neg_one
    | cons data rest =>
      obtain ⟨h1, h2⟩ := kbdProcData_one hdata
      obtain ⟨-, hdata'⟩ := kbdProcData_answer hdata
      rw [hdata', h2] at ih
      rw [kbdDecode, ← h1, hc]
      dsimp only
      refine ⟨?_, ih.2⟩
      have hzero : c.setWidth 32 = (0 : Word) ↔ c = 0 := setWidth_char_inj (d := 0)
      by_cases h0 : c = 0
      · rw [if_pos (hzero.mpr h0), List.filter_cons_of_neg (by simp [h0]), ih.1]
      · rw [if_neg (mt hzero.mp h0), setWidth_char, List.filter_cons_of_pos (by simpa using h0), ih.1]

theorem kbdDecode_append :
    kbdDecode w (cs ++ cs') = ((kbdDecode w cs).1 ++ (kbdDecode (kbdDecode w cs).2 cs').1,
    (kbdDecode (kbdDecode w cs).2 cs').2) := by
  induction cs generalizing w with
  | nil => rfl
  | cons c cs ih =>
    rw [List.cons_append, kbdDecode, kbdDecode, ih]
    dsimp only
    split <;> rfl

/-- The table is chosen by two bits of the state word. -/
theorem charcode_eq (w : Word) (data : Byte) : charcode w data =
    if w.getLsbD 1 = true then ctlmap data
    else if w.getLsbD 0 = true then shiftmap data else normalmap data := by
  have hmask : (w &&& (kbdCtl ||| kbdShift)).toNat = w.toNat % 4 := by
    rw [BitVec.toNat_and]
    exact Nat.and_two_pow_sub_one_eq_mod w.toNat 2
  have h0 : w.getLsbD 0 = decide (w.toNat % 4 % 2 = 1) := by
    rw [BitVec.getLsbD, Nat.testBit_zero]
    exact decide_eq_decide.mpr (by omega)
  have h1 : w.getLsbD 1 = decide (w.toNat % 4 / 2 = 1) := by
    rw [BitVec.getLsbD, Nat.testBit_succ, Nat.testBit_zero]
    exact decide_eq_decide.mpr (by omega)
  have hlt : w.toNat % 4 < 4 := Nat.mod_lt _ (by decide)
  rw [charcode, hmask, h0, h1]
  generalize w.toNat % 4 = n at hlt
  interval_cases n <;> rfl

/-- What kbd_proc_data answers to an event; 0 if it types nothing. -/
def KeyEvent.answer : KeyEvent → Word → Byte
  | press k, w => capsConvert ((press k).shifts w) (charcode ((press k).shifts w) k.index)
  | release _, _ => 0

/-- The tables give what is typed, if the state word becomes that of the events. -/
theorem typedBy_eq (hw : e.shifts w = shiftAfter (es ++ [e])) :
    typedBy es e = if e.answer w = 0 then [] else [e.answer w] := by
  cases e with
  | release k => rfl
  | press k =>
    have hcaps : Has (shiftAfter (es ++ [.press k])) capslock ↔
        (Toggle.capslock.presses (es ++ [.press k]) % 2 = 1) := (shiftAfter_sound _).toggles .capslock
    have hshift := shiftAfter_modifier (es ++ [.press k]) .shift
    have hctl := shiftAfter_modifier (es ++ [.press k]) .ctl
    dsimp only [Modifier.bit] at hshift hctl
    have hchar : k.char (latest Modifier.shift.isKey (es ++ [.press k]))
        (latest Modifier.ctl.isKey (es ++ [.press k]))
        (Toggle.capslock.presses (es ++ [.press k]) % 2 = 1) = (KeyEvent.press k).answer w := by
      rw [KeyEvent.answer, hw, Key.char, capsConvert, charcode_eq, hshift, hctl]
      simp only [hcaps, decide_eq_true_eq]
    rw [typedBy, hchar]

/-- The code of an event, behind its prefix if it has one. -/
theorem kbdProcData_char (hdata : k.data = e.lastCode :: rest)
    (hE : Has k.shift e0esc ↔ e.key.extended = true) :
    (kbdProcData k).1 = (e.answer k.shift).setWidth 32 := by
  have hmake : ∀ (k : Kbd) (data : Byte), (kbdMake k data).1 =
      (capsConvert ((k.shift ||| shiftcode data) ^^^ togglecode data)
        (charcode ((k.shift ||| shiftcode data) ^^^ togglecode data) data)).setWidth 32 := by
    intro k data
    unfold kbdMake
    dsimp only
    split <;> rfl
  obtain ⟨h1, h2, h3, h4, -⟩ := e.key.code_facts
  rw [kbdProcData, hdata]
  cases e with
  | press key =>
    dsimp only [KeyEvent.lastCode, KeyEvent.key] at h1 h2 hE ⊢
    rw [if_neg h1, if_neg (not_not.mpr h2), KeyEvent.answer, KeyEvent.shifts, Key.index]
    by_cases hext : key.extended = true
    · rw [if_pos (hE.mpr hext), hmake, if_pos hext]
    · have hno : ¬ Has k.shift e0esc := fun h => hext (hE.mp h)
      rw [if_neg hno, hmake, if_neg hext, and_not_self hno]
  | release key =>
    dsimp only [KeyEvent.lastCode, KeyEvent.key] at h3 h4 ⊢
    rw [if_neg h3, if_pos h4]
    rfl

theorem kbdDecode_lastCode (es : List KeyEvent) (hw : e.shifts w = shiftAfter (es ++ [e]))
    (hE : Has w e0esc ↔ e.key.extended = true) :
    kbdDecode w [e.lastCode] = (typedBy es e, shiftAfter (es ++ [e])) := by
  have hdata : (Kbd.mk w [e.lastCode] 0).data = e.lastCode :: [] := rfl
  obtain ⟨r, hr⟩ := kbdProcData_code hdata hE
  have hzero : (e.answer w).setWidth 32 = (0 : Word) ↔ e.answer w = 0 := setWidth_char_inj (d := 0)
  rw [kbdDecode, hr, kbdProcData_char hdata hE, typedBy_eq hw, ← hw]
  dsimp only [kbdDecode]
  rw [if_congr hzero rfl rfl, setWidth_char]

theorem kbdDecode_event (es : List KeyEvent) (e : KeyEvent) :
    kbdDecode (shiftAfter es) e.codes = (typedBy es e, shiftAfter (es ++ [e])) := by
  have hsettled := shiftAfter_settled es
  unfold KeyEvent.codes
  by_cases hext : e.key.extended = true
  · have hlast := kbdDecode_lastCode (w := shiftAfter es ||| e0esc) es
      (KeyEvent.shifts_or_e0esc.trans shiftAfter_concat.symm) ⟨fun _ => hext, fun _ => has_or_e0esc⟩
    rw [if_pos hext, ← hlast]
    rfl
  · rw [if_neg hext]
    exact kbdDecode_lastCode es shiftAfter_concat.symm ⟨fun h => absurd h hsettled, fun h => absurd h hext⟩

theorem typedText_concat (before es : List KeyEvent) (e : KeyEvent) :
    typedText before (es ++ [e]) = typedText before es ++ typedBy (before ++ es) e := by
  induction es generalizing before with
  | nil => simp [typedText]
  | cons e' es ih => rw [List.cons_append, typedText, typedText, ih, List.append_assoc, List.append_assoc,
      List.singleton_append]

/-- The codes of the events are decoded to the text typed. -/
theorem kbdDecode_codes (es : List KeyEvent) : kbdDecode 0 (codes es) = (typedText [] es, shiftAfter es) := by
  induction es using List.reverseRecOn with
  | nil => rfl
  | append_singleton es e ih =>
    rw [codes_concat, kbdDecode_append, ih, kbdDecode_event, typedText_concat, List.nil_append]

end decode

/-- What holds between the calls: the codes sent are those decoded into the ring, and those that wait. -/
structure TypeInv (t : Terminal) (sent got : List Byte) (h : List (Item Byte)) (read : List Byte) : Prop where
  ring : Run consbufsize t.cons.ring h
  nonzero : ∀ c ∈ puts h, c ≠ 0
  fits : Fits consbufsize h
  taken : gots h = got.filter (· ≠ 0)
  split : sent = read ++ t.dev.kbd.data
  decoded : kbdDecode 0 read = (puts h, t.dev.kbd.shift)
  quiet : t.dev.rx = []
  room : (kbdDecode 0 sent).1.length < (got.filter (· ≠ 0)).length + consbufsize

section run

variable {t : Terminal} {sent got read : List Byte} {h : List (Item Byte)} {code : Byte} {c : Word}
  {dev : Devices}
  {cons : Cons} {kbd : Kbd} {cs : List Byte}

theorem fits_append {h' : List (Item Byte)} (hf : Fits consbufsize h)
    (hroom : (puts (h ++ h')).length < (gots h).length + consbufsize) : Fits consbufsize (h ++ h') := by
  intro p hp
  rcases List.prefix_or_prefix_of_prefix hp (List.prefix_append h h') with hph | hhp
  · exact hf p hph
  · have hputs : (puts p).length ≤ (puts (h ++ h')).length := (hp.filterMap _).length_le
    have hgots : (gots h).length ≤ (gots p).length := (hhp.filterMap _).length_le
    omega

/-- The keyboard's codes are decoded into the ring. -/
theorem TypeInv.kbdIntr (hinv : TypeInv t sent got h read) : ∃ kbd cons cs,
    Jos.kbdIntr t.dev t.cons = .ok { t.dev with kbd := kbd } cons ∧ gots (h ++ delivered cs) = gots h ∧
    TypeInv ⟨cons, { t.dev with kbd := kbd }⟩ sent got (h ++ delivered cs) sent := by
  obtain ⟨cs, kbd, hyields, hlen⟩ := yields_kbd t.dev.kbd
  obtain ⟨hchars, hshift, hdata⟩ := yields_decode hyields
  obtain ⟨cons, hintr, hring⟩ := consIntr_ok hyields (by rw [hlen]; exact Nat.lt_succ_self _) hinv.ring
  have hputs : puts (h ++ delivered cs) = (kbdDecode 0 sent).1 := by
    rw [puts_append, puts_delivered, hchars, hinv.split, kbdDecode_append, hinv.decoded]
  have hgots : gots (h ++ delivered cs) = gots h := by
    have hnone : gots (delivered cs) = [] := by
      rw [gots, delivered, List.filterMap_map]
      exact List.filterMap_eq_nil_iff.mpr fun _ _ => rfl
    rw [gots, List.filterMap_append]
    exact (congrArg _ hnone).trans (List.append_nil _)
  refine ⟨kbd, cons, cs, ?_, hgots, hring, nonzero_of_delivered hinv.nonzero, ?_,
    hgots.trans hinv.taken, ?_, ?_,
    hinv.quiet, hinv.room⟩
  · rw [Jos.kbdIntr, bind_ok hintr]
    rfl
  · refine fits_append hinv.fits ?_
    rw [hputs, hinv.taken]
    exact hinv.room
  · rw [hdata, List.append_nil]
  · rw [hputs, hshift, hinv.split, kbdDecode_append, hinv.decoded]

theorem consTake_char {s s' : Cons} (h : consTake s = .ok c s') : ∃ b : Byte, c = b.setWidth 32 := by
  rw [consTake, bind_ok (read_apply s)] at h
  by_cases hne : s.rpos ≠ s.wpos
  · rw [Prog.ite_apply, if_pos hne] at h
    obtain ⟨⟨⟩, u, -, h⟩ := bind_eq_ok.mp h
    obtain ⟨⟨⟩, v, -, h⟩ := bind_eq_ok.mp h
    exact ⟨_, (pure_eq_ok.mp h).1.symm⟩
  · rw [Prog.ite_apply, if_neg hne] at h
    exact ⟨0, (pure_eq_ok.mp h).1.symm⟩

/-- The next character of a queue is the one behind those that were taken. -/
theorem answered_next {r : RingBuf Byte} (hring : Run consbufsize r (h ++ [answered c]))
    (hfits : Fits consbufsize (h ++ [answered c])) (hc : ∃ b : Byte, c = b.setWidth 32) :
    c = ((puts h).getD (gots h).length 0).setWidth 32 := by
  have hpos : 0 < consbufsize := by decide
  obtain ⟨b, rfl⟩ := hc
  have hzero : b.setWidth 32 = (0 : Word) ↔ b = 0 := setWidth_char_inj (d := 0)
  rw [answered, if_congr hzero rfl rfl, setWidth_char] at hring hfits
  by_cases h0 : b = 0
  · rw [if_pos h0] at hring hfits
    have hall := hring.none_empty hpos (hfits.mono (List.prefix_append _ _))
    rw [hall, List.getD_eq_getElem?_getD, List.getElem?_eq_none (Nat.le_refl _), h0]
    rfl
  · rw [if_neg h0] at hring hfits
    obtain ⟨-, hq⟩ := hring.queue hpos hfits
    rw [gots_got, puts_got, List.length_append, List.length_singleton] at hq
    have hget := congrArg (fun l : List Byte => l[(gots h).length]?) hq
    rw [List.getElem?_concat_length, List.getElem?_take_of_lt (Nat.lt_succ_self _)] at hget
    rw [List.getD_eq_getElem?_getD, ← hget, Option.getD_some]

/-- cons_getc returns the next character typed, or 0 when all have been read. -/
theorem TypeInv.consGetc (hinv : TypeInv t sent got h read) : ∃ dev cons h',
    Jos.consGetc t.dev t.cons =
      .ok (((kbdDecode 0 sent).1.getD (got.filter (· ≠ 0)).length 0).setWidth 32, dev) cons ∧
    TypeInv ⟨cons, dev⟩ sent (got ++ [(kbdDecode 0 sent).1.getD (got.filter (· ≠ 0)).length 0]) h' sent := by
  obtain ⟨kbd, cons, cs, hkbd, hgots, hnext⟩ := hinv.kbdIntr
  have hserial : serialIntr t.dev t.cons = .ok t.dev t.cons := by
    rw [serialIntr]
    by_cases hex : t.dev.serialExists = true
    · have hnone : consIntr serialProcData (t.dev.rx.length + 1) t.dev.rx t.cons = .ok t.dev.rx t.cons := by
        rw [hinv.quiet]
        rfl
      rw [if_pos hex, bind_ok hnone]
      rfl
    · rw [if_neg hex]
      rfl
  obtain ⟨c, cons', htake, hring⟩ := consTake_ok hnext.ring hnext.nonzero
  have hchar := consTake_char htake
  have hputs : puts (h ++ delivered cs) = (kbdDecode 0 sent).1 := by rw [hnext.decoded]
  have hsame : puts (h ++ delivered cs ++ [answered c]) = puts (h ++ delivered cs) := by
    unfold answered
    split
    · exact puts_none
    · exact puts_got
  have hfits : Fits consbufsize (h ++ delivered cs ++ [answered c]) := by
    refine fits_append hnext.fits ?_
    rw [hsame, hputs, hnext.taken]
    exact hnext.room
  have hc := answered_next hring hfits hchar
  rw [hputs, hgots, hinv.taken] at hc
  generalize (kbdDecode 0 sent).1.getD (got.filter (· ≠ 0)).length 0 = b at hc ⊢
  subst hc
  have hzero : b.setWidth 32 = (0 : Word) ↔ b = 0 := setWidth_char_inj (d := 0)
  have hgot : gots (h ++ delivered cs ++ [answered (b.setWidth 32)]) = (got ++ [b]).filter (· ≠ 0) := by
    rw [List.filter_append, ← hnext.taken, answered, if_congr hzero rfl rfl, setWidth_char]
    by_cases h0 : b = 0
    · rw [if_pos h0, gots_none, h0]
      simp
    · rw [if_neg h0, gots_got, List.filter_cons_of_pos (by simpa using h0), List.filter_nil]
  refine ⟨{ t.dev with kbd := kbd }, cons', h ++ delivered cs ++ [answered (b.setWidth 32)], ?_,
    hring, ?_, hfits,
    hgot, hnext.split, ?_, hinv.quiet, ?_⟩
  · rw [Jos.consGetc, bind_ok hserial, bind_ok hkbd, bind_ok htake]
    rfl
  · rw [hsame]
    exact hnext.nonzero
  · rw [hsame]
    exact hnext.decoded
  · have hle : (got.filter (· ≠ 0)).length ≤ ((got ++ [b]).filter (· ≠ 0)).length := by
      rw [List.filter_append, List.length_append]
      exact Nat.le_add_right _ _
    exact Nat.lt_of_lt_of_le hinv.room (Nat.add_le_add_right hle _)

theorem TypeRun.inv (hrun : TypeRun t sent got) : ∃ h read, TypeInv t sent got h read := by
  induction hrun with
  | start hr hw hrx hshift hdata =>
    refine ⟨[], [], .start (congrArg BitVec.toNat hr) (congrArg BitVec.toNat hw), ?_, ?_, rfl, ?_, ?_,
      hrx, ?_⟩
    · exact fun c hc => absurd hc List.not_mem_nil
    · intro p hp
      rw [List.prefix_nil.mp hp]
      decide
    · rw [hdata, List.append_nil]
    · rw [hshift]
      rfl
    · decide
  | code hrun hroom ih =>
    obtain ⟨h, read, hinv⟩ := ih
    refine ⟨h, read, hinv.ring, hinv.nonzero, hinv.fits, hinv.taken, ?_, hinv.decoded, hinv.quiet, hroom⟩
    rw [hinv.split, List.append_assoc]
  | intr hrun hintr ih =>
    obtain ⟨h, read, hinv⟩ := ih
    obtain ⟨kbd, cons, cs, hok, -, hnext⟩ := hinv.kbdIntr
    rw [hintr] at hok
    cases hok
    exact ⟨_, _, hnext⟩
  | getc hrun hgetc ih =>
    obtain ⟨h, read, hinv⟩ := ih
    obtain ⟨dev, cons, h', hok, hnext⟩ := hinv.consGetc
    rw [hgetc] at hok
    cases hok
    rw [setWidth_char]
    exact ⟨_, _, hnext⟩

end run

/-- What is typed is what is read. However the keyboard's codes, its interrupts and the calls of
cons_getc follow each other, the calls have returned the first characters of the text typed, and the next
one returns the character behind them, or 0 when there is none. -/
theorem typeRun_reads {t : Terminal} {es : List KeyEvent} {got : List Byte}
    (hrun : TypeRun t (codes es) got) :
    got.filter (· ≠ 0) <+: typedText [] es ∧ ∃ dev cons, consGetc t.dev t.cons =
      .ok (((typedText [] es).getD (got.filter (· ≠ 0)).length 0).setWidth 32, dev) cons := by
  obtain ⟨h, read, hinv⟩ := hrun.inv
  obtain ⟨dev, cons, h', hgetc, -⟩ := hinv.consGetc
  rw [kbdDecode_codes] at hgetc
  refine ⟨?_, dev, cons, hgetc⟩
  obtain ⟨-, hq⟩ := hinv.ring.queue (by decide) hinv.fits
  have hputs : puts h <+: typedText [] es := by
    have hdec := congrArg Prod.fst (kbdDecode_codes es)
    rw [hinv.split, kbdDecode_append, hinv.decoded] at hdec
    exact ⟨_, hdec⟩
  rw [← hinv.taken, hq]
  exact (List.take_prefix _ _).trans hputs

/-- Shift and 'h' are typed, and cons_getc is called; then 'i', without shift, is next. -/
theorem typeRun_reads_hi : ∃ t, TypeRun t (codes [.press leftShift, .press ⟨false, 0x23, by decide⟩,
    .release leftShift, .press ⟨false, 0x17, by decide⟩]) [chr 'H'] ∧ ∃ dev cons,
      consGetc t.dev t.cons = .ok ((chr 'i').setWidth 32, dev) cons := by
  have h0 : TypeRun ⟨⟨fun _ => 0, 0, 0⟩, ⟨false, [], ⟨0, [], 0⟩⟩⟩ [] [] := .start rfl rfl rfl rfl rfl
  have h1 : TypeRun _ [0x2A] [] := h0.code (by decide)
  have h2 : TypeRun _ [0x2A, 0x23] [] := h1.code (by decide)
  have h3 : TypeRun _ [0x2A, 0x23] [chr 'H'] := h2.getc (c := (chr 'H').setWidth 32) rfl
  have h4 : TypeRun _ [0x2A, 0x23, 0xAA] [chr 'H'] := h3.code (by decide)
  have h5 : TypeRun _ [0x2A, 0x23, 0xAA, 0x17] [chr 'H'] := h4.code (by decide)
  have hrun : TypeRun _ (codes [.press leftShift, .press ⟨false, 0x23, by decide⟩,
    .release leftShift, .press ⟨false, 0x17, by decide⟩]) [chr 'H'] := h5
  obtain ⟨-, dev, cons, hgetc⟩ := typeRun_reads hrun
  exact ⟨_, hrun, dev, cons, hgetc⟩

end Jos
