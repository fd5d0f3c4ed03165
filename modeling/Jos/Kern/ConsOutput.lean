import Jos.Kern.Screen
import Jos.Library.Zoom

/-! cons_putc with the ports it waits for (kern/console.c): what comes out of the serial port, the
parallel port and the screen. -/
namespace Jos

open Prog

/-- The screen and the ports, with the answers of the status ports from poll to poll. -/
structure Console where
  crt : Crt
  status : Word → Nat → Byte
  polls : Nat

namespace Console

def onCrt : Prog CrtFault Crt Unit → Prog CrtFault Console Unit :=
  zoom id Console.crt fun crt s => { s with crt := crt }

def inb (port : Word) : Prog CrtFault Console Byte := do
  let s ← read
  update fun s => { s with polls := s.polls + 1 }
  pure (s.status port s.polls)

/-- `for (i = 0; !(inb(port) & mask) && i < 12800; i++) delay();`, with so many rounds left. -/
def await (port : Word) (mask : Byte) : Nat → Prog CrtFault Console Unit
  | 0 => do
    let _ ← inb port
    pure ()
  | left + 1 => do
    let b ← inb port
    if b &&& mask ≠ 0 then pure () else await port mask left

def serialPutc (c : Word) : Prog CrtFault Console Unit := do
  await 0x3FD 0x20 12800
  onCrt (Jos.serialPutc c)

def lptPutc (c : Word) : Prog CrtFault Console Unit := do
  await 0x379 0x80 12800
  onCrt (Jos.lptPutc c)

/-- cons_putc, over cga_putc. -/
def consPutcWith (cgaPutc : Word → Prog CrtFault Console Unit) (c : Word) : Prog CrtFault Console Unit := do
  serialPutc c
  lptPutc c
  cgaPutc c

/-- The switch of cga_putc. Only a tab calls cons_putc. -/
def cgaSwitch (consPutc : Word → Prog CrtFault Console Unit) (c : Word) : Prog CrtFault Console Unit :=
  if (c &&& 0xFF).toNat = 9 then do
    consPutc 0x20
    consPutc 0x20
    consPutc 0x20
    consPutc 0x20
    consPutc 0x20
  else
    onCrt (Jos.cgaSwitch (fun _ => stop .deep) c)

/-- cga_putc, with at most so many cga_putc inside each other. -/
def cgaPutcFor : Nat → Word → Prog CrtFault Console Unit
  | 0, _ => stop .deep
  | depth + 1, c => do
    cgaSwitch (consPutcWith (cgaPutcFor depth)) (withAttribute c)
    onCrt cgaScroll
    onCrt cgaCursor

def consPutc (c : Word) : Prog CrtFault Console Unit := consPutcWith (cgaPutcFor 2) c

def cputchar (c : Word) : Prog CrtFault Console Unit := consPutc c

/-- One cputchar after the other. -/
def cputchars : List Word → Prog CrtFault Console Unit
  | [] => pure ()
  | c :: cs => do
    cputchar c
    cputchars cs

end Console

/-- The devices behind the ports, and what they have got so far. -/
structure Lines where
  /-- the divisor latch access bit of the serial port -/
  divisor : Bool
  sent : List Byte
  /-- the byte on the printer's lines -/
  latch : Byte
  printed : List Byte
  /-- the video controller: the register chosen, and the registers -/
  index : Byte
  regs : Byte → Byte

namespace Lines

/-- A write to a port; the video controller is at `video`. -/
def out (video : Word) (l : Lines) (p : Word × Byte) : Lines :=
  if p.1 = 0x3FB then
    { l with divisor := p.2.getLsbD 7 }
  else if p.1 = 0x3F8 then
    if l.divisor then l else { l with sent := l.sent ++ [p.2] }
  else if p.1 = 0x378 then
    { l with latch := p.2 }
  else if p.1 = 0x37A then
    -- the strobe
    if p.2.getLsbD 0 then { l with printed := l.printed ++ [l.latch] } else l
  else if p.1 = video then
    { l with index := p.2 }
  else if p.1 = video + 1 then
    { l with regs := Function.update l.regs l.index p.2 }
  else
    l

def outs (video : Word) (l : Lines) (log : List (Word × Byte)) : Lines := log.foldl (out video) l

/-- Where the video controller shows the cursor. -/
def cursor (l : Lines) : BitVec 16 := (l.regs 14).setWidth 16 <<< 8 ||| (l.regs 15).setWidth 16

/-- Behind `l`, the serial line has got the bytes `ss` and the printer `ps`. -/
structure Gets (l l' : Lines) (ss ps : List Byte) : Prop where
  divisor : l'.divisor = false
  sent : l'.sent = l.sent ++ ss
  printed : l'.printed = l.printed ++ ps

end Lines

/-- The bytes a character comes out as: the spaces of a tab come behind it. -/
def consBytes (c : Word) : List Byte :=
  if c.setWidth 8 = (9 : Byte) then 9 :: List.replicate 5 0x20 else [c.setWidth 8]

/-- The registers of the video controller are apart from the other ports. -/
def VideoPort (port : Word) : Prop := port = 0x3B4 ∨ port = 0x3D4

/-- Besides drawing, the program sends these bytes to the two ports. -/
def Sends (ss ps : List Byte) (x : Prog CrtFault Crt Unit) : Prop :=
  ∀ s t, VideoPort s.addr6845 → x s = .ok () t → t.addr6845 = s.addr6845 ∧
    ∃ log, t.ports = s.ports ++ log ∧
      ∀ l : Lines, l.divisor = false → l.Gets (l.outs s.addr6845 log) ss ps

/-- The program leaves the cursor where the next character goes. -/
def Points (x : Prog CrtFault Crt Unit) : Prop :=
  ∀ s t, VideoPort s.addr6845 → x s = .ok () t → t.addr6845 = s.addr6845 ∧
    ∃ log, t.ports = s.ports ++ log ∧ ∀ l : Lines, (l.outs s.addr6845 log).cursor = t.crtPos

section sends

variable {ss ps ss' ps' : List Byte} {x y : Prog CrtFault Crt Unit} {s t : Crt} {c port video : Word}
  {b : Byte} {log log' : List (Word × Byte)} {latch : Byte} {cs : List Word} {l l' l'' : Lines}

theorem outs_append : l.outs video (log ++ log') = (l.outs video log).outs video log' := List.foldl_append

theorem Lines.Gets.refl (h : l.divisor = false) : l.Gets l [] [] :=
  ⟨h, (List.append_nil _).symm, (List.append_nil _).symm⟩

theorem Lines.Gets.trans (h : l.Gets l' ss ps) (h' : l'.Gets l'' ss' ps') :
    l.Gets l'' (ss ++ ss') (ps ++ ps') :=
  ⟨h'.divisor, by rw [h'.sent, h.sent, List.append_assoc], by rw [h'.printed, h.printed, List.append_assoc]⟩

theorem Sends.seq (hx : Sends ss ps x) (hy : Sends ss' ps' y) :
    Sends (ss ++ ss') (ps ++ ps') (x >>= fun _ => y) := by
  intro s u hs hrun
  obtain ⟨⟨⟩, t, hxt, hyu⟩ := bind_eq_ok.mp hrun
  obtain ⟨haddr, log, hlog, hgets⟩ := hx s t hs hxt
  obtain ⟨haddr', log', hlog', hgets'⟩ := hy t u (haddr ▸ hs) hyu
  refine ⟨haddr'.trans haddr, log ++ log', by rw [hlog', hlog, List.append_assoc], fun l hl => ?_⟩
  have hnext := hgets' _ (hgets l hl).divisor
  rw [haddr] at hnext
  rw [outs_append]
  exact (hgets l hl).trans hnext

theorem Points.after (hx : Sends ss ps x) (hy : Points y) : Points (x >>= fun _ => y) := by
  intro s u hs hrun
  obtain ⟨⟨⟩, t, hxt, hyu⟩ := bind_eq_ok.mp hrun
  obtain ⟨haddr, log, hlog, -⟩ := hx s t hs hxt
  obtain ⟨haddr', log', hlog', hpoints⟩ := hy t u (haddr ▸ hs) hyu
  refine ⟨haddr'.trans haddr, log ++ log', by rw [hlog', hlog, List.append_assoc], fun l => ?_⟩
  rw [outs_append, ← haddr]
  exact hpoints _

/-- A program that leaves the ports alone. -/
def Quiet (x : Prog CrtFault Crt Unit) : Prop := Keeps (fun s : Crt => (s.ports, s.addr6845)) x

theorem Quiet.sends (h : Quiet x) : Sends [] [] x := by
  intro s t _ hrun
  obtain ⟨hports, haddr⟩ := Prod.ext_iff.mp (h s () t hrun)
  exact ⟨haddr, [], hports.trans (List.append_nil _).symm, fun l hl => .refl hl⟩

/-- A write to the video controller. -/
theorem sends_videoPort (h : VideoPort s.addr6845) (hp : port = s.addr6845 ∨ port = s.addr6845 + 1)
    (hl : l.divisor = false) : l.Gets (l.out s.addr6845 (port, b)) [] [] := by
  have hne : port ≠ 0x3FB ∧ port ≠ 0x3F8 ∧ port ≠ 0x378 ∧ port ≠ 0x37A := by
    rcases hp with rfl | rfl <;> rcases h with h | h <;> rw [h] <;> decide
  rw [Lines.out, if_neg hne.1, if_neg hne.2.1, if_neg hne.2.2.1, if_neg hne.2.2.2]
  split
  · exact ⟨hl, (List.append_nil _).symm, (List.append_nil _).symm⟩
  · split
    · exact ⟨hl, (List.append_nil _).symm, (List.append_nil _).symm⟩
    · exact .refl hl

theorem sends_serialPutc : Sends [c.setWidth 8] [] (serialPutc c) := by
  intro s t _ hrun
  obtain rfl := update_eq_ok.mp hrun
  refine ⟨rfl, [(0x3F8, c.setWidth 8)], rfl, fun l hl => ?_⟩
  have hout : l.outs s.addr6845 [(0x3F8, c.setWidth 8)] = { l with sent := l.sent ++ [c.setWidth 8] } := by
    simp [Lines.outs, Lines.out, hl]
  rw [hout]
  exact ⟨hl, rfl, (List.append_nil _).symm⟩

theorem sends_lptPutc : Sends [] [c.setWidth 8] (lptPutc c) := by
  intro s t _ hrun
  obtain ⟨⟨⟩, u, h1, hrun⟩ := bind_eq_ok.mp hrun
  obtain ⟨⟨⟩, v, h2, h3⟩ := bind_eq_ok.mp hrun
  obtain rfl := update_eq_ok.mp h1
  obtain rfl := update_eq_ok.mp h2
  obtain rfl := update_eq_ok.mp h3
  refine ⟨rfl, [(0x378, c.setWidth 8), (0x37A, 0x0D), (0x37A, 0x08)], by simp, fun l hl => ?_⟩
  have hout : l.outs s.addr6845 [(0x378, c.setWidth 8), (0x37A, 0x0D), (0x37A, 0x08)] =
      { l with latch := c.setWidth 8, printed := l.printed ++ [c.setWidth 8] } := by
    simp [Lines.outs, Lines.out]
  rw [hout]
  exact ⟨hl, (List.append_nil _).symm, rfl⟩

theorem quiet_setPos (f : BitVec 16 → BitVec 16) : Quiet (setPos f) := keeps_update fun _ => rfl

theorem quiet_storeCell (i : Nat) (v : BitVec 16) : Quiet (storeCell i v) :=
  (keeps_check _ _).bind fun _ => keeps_update fun _ => rfl

theorem quiet_cgaScroll : Quiet cgaScroll := by
  have hmove : ∀ n dst src, Quiet (moveCells dst src n) := by
    intro n
    induction n with
    | zero => exact fun dst src => keeps_pure _
    | succ n ih =>
      intro dst src
      exact Keeps.bind ((keeps_check _ _).bind fun _ => keeps_read.bind fun _ => keeps_pure _) fun v =>
        (quiet_storeCell _ _).bind fun _ => ih _ _
  have hblank : ∀ n i, Quiet (blankCells i n) := by
    intro n
    induction n with
    | zero => exact fun i => keeps_pure _
    | succ n ih => exact fun i => (quiet_storeCell _ _).bind fun _ => ih _
  refine keeps_read.bind fun s => keeps_ite ?_ (keeps_pure _)
  exact (hmove _ _ _).bind fun _ => (hblank _ _).bind fun _ => quiet_setPos _

/-- What the video controller is told of a cursor position. -/
def cursorLog (addr : Word) (pos : BitVec 16) : List (Word × Byte) :=
  [(addr, 14), (addr + 1, (pos >>> 8).setWidth 8), (addr, 15), (addr + 1, pos.setWidth 8)]

theorem cgaCursor_log (hrun : cgaCursor s = .ok () t) :
    t = { s with ports := s.ports ++ cursorLog s.addr6845 s.crtPos } := by
  rw [cgaCursor, bind_ok (read_apply s)] at hrun
  obtain ⟨⟨⟩, u, h1, hrun⟩ := bind_eq_ok.mp hrun
  obtain ⟨⟨⟩, v, h2, hrun⟩ := bind_eq_ok.mp hrun
  obtain ⟨⟨⟩, w, h3, h4⟩ := bind_eq_ok.mp hrun
  obtain rfl := update_eq_ok.mp h1
  obtain rfl := update_eq_ok.mp h2
  obtain rfl := update_eq_ok.mp h3
  obtain rfl := update_eq_ok.mp h4
  simp [cursorLog]

theorem sends_cgaCursor : Sends [] [] cgaCursor := by
  intro s t hs hrun
  obtain rfl := cgaCursor_log hrun
  refine ⟨rfl, _, rfl, fun l hl => ?_⟩
  have h1 := sends_videoPort (b := 14) hs (.inl rfl) hl
  have h2 := sends_videoPort (b := (s.crtPos >>> 8).setWidth 8) hs (.inr rfl) h1.divisor
  have h3 := sends_videoPort (b := 15) hs (.inl rfl) h2.divisor
  exact ((h1.trans h2).trans h3).trans (sends_videoPort hs (.inr rfl) h3.divisor)

/-- The two halves of the position make up the position. -/
theorem joinBytes (v : BitVec 16) :
    ((v >>> 8).setWidth 8 : Byte).setWidth 16 <<< 8 ||| (v.setWidth 8 : Byte).setWidth 16 = v := by
  refine BitVec.eq_of_getLsbD_eq fun j hj => ?_
  interval_cases j <;> simp

theorem regs_cursorLog {addr : Word} (h : VideoPort addr) {pos : BitVec 16} :
    (l.outs addr (cursorLog addr pos)).regs =
      Function.update (Function.update l.regs 14 ((pos >>> 8).setWidth 8)) 15 (pos.setWidth 8) := by
  rcases h with rfl | rfl <;> rfl

theorem points_cgaCursor : Points cgaCursor := by
  intro s t hs hrun
  obtain rfl := cgaCursor_log hrun
  refine ⟨rfl, _, rfl, fun l => ?_⟩
  rw [Lines.cursor, regs_cursorLog hs]
  exact joinBytes s.crtPos

/-- Without a tab, cga_putc only draws. -/
theorem quiet_cgaSwitch {put : Word → Prog CrtFault Crt Unit} (h : (c &&& 0xFF).toNat ≠ 9) :
    Quiet (cgaSwitch put c) := by
  unfold cgaSwitch
  split
  · refine keeps_read.bind fun s => keeps_ite ?_ (keeps_pure _)
    exact (quiet_setPos _).bind fun _ => quiet_storeCell _ _
  · exact (quiet_setPos _).bind fun _ => quiet_setPos _
  · exact quiet_setPos _
  · next h9 => exact absurd h9 h
  · exact keeps_read.bind fun s => (quiet_storeCell _ _).bind fun _ => quiet_setPos _

theorem sends_consPutcWith {put : Word → Prog CrtFault Crt Unit} (hput : Sends ss ss (put c)) :
    Sends (c.setWidth 8 :: ss) (c.setWidth 8 :: ss) (consPutcWith put c) :=
  sends_serialPutc.seq (sends_lptPutc.seq hput)

theorem lowByte_withAttribute : (withAttribute c &&& 0xFF).toNat = 9 ↔ c.setWidth 8 = (9 : Byte) := by
  have hlow : withAttribute c &&& 0xFF = c &&& 0xFF := by
    rw [withAttribute]
    split
    · have hattr : (0x0700 : Word) &&& 0xFF = 0#32 := by decide
      rw [BitVec.and_or_distrib_right, hattr, BitVec.or_zero]
    · rfl
  have hmod : (c &&& 0xFF).toNat = (c.setWidth 8).toNat := by
    rw [BitVec.toNat_and, BitVec.toNat_setWidth]
    exact Nat.and_two_pow_sub_one_eq_mod c.toNat 8
  rw [hlow, hmod]
  exact ⟨fun h => BitVec.eq_of_toNat_eq h, fun h => by rw [h]; rfl⟩

theorem sends_cgaPutcFor_other {depth : Nat} (h : c.setWidth 8 ≠ (9 : Byte)) :
    Sends [] [] (cgaPutcFor (depth + 1) c) :=
  (quiet_cgaSwitch (mt lowByte_withAttribute.mp h)).sends.seq (quiet_cgaScroll.sends.seq sends_cgaCursor)

/-- The spaces of a tab. -/
theorem sends_cgaSwitch_tab (h : c.setWidth 8 = (9 : Byte)) :
    Sends (List.replicate 5 0x20) (List.replicate 5 0x20)
      (cgaSwitch (consPutcWith (cgaPutcFor 1)) (withAttribute c)) := by
  have hspace : Sends [0x20] [0x20] (consPutcWith (cgaPutcFor 1) 0x20) :=
    sends_consPutcWith (sends_cgaPutcFor_other (by decide))
  unfold cgaSwitch
  rw [lowByte_withAttribute.mpr h]
  exact hspace.seq (hspace.seq (hspace.seq (hspace.seq hspace)))

theorem sends_consPutc : Sends (consBytes c) (consBytes c) (consPutc c) := by
  rw [consPutc, consBytes]
  by_cases h : c.setWidth 8 = (9 : Byte)
  · have hcga : Sends (List.replicate 5 0x20) (List.replicate 5 0x20) (cgaPutc c) :=
      (sends_cgaSwitch_tab h).seq (quiet_cgaScroll.sends.seq sends_cgaCursor)
    rw [if_pos h, ← h]
    exact sends_consPutcWith hcga
  · rw [if_neg h]
    exact sends_consPutcWith (sends_cgaPutcFor_other h)

theorem points_consPutc : Points (consPutc c) := by
  refine Points.after sends_serialPutc (Points.after sends_lptPutc ?_)
  by_cases h : c.setWidth 8 = (9 : Byte)
  · exact Points.after (sends_cgaSwitch_tab h) (Points.after quiet_cgaScroll.sends points_cgaCursor)
  · exact Points.after (quiet_cgaSwitch (mt lowByte_withAttribute.mp h)).sends
      (Points.after quiet_cgaScroll.sends points_cgaCursor)

end sends

/-- The program does to the screen and the ports what the other does, whatever the status ports answer,
in at most `n` polls. -/
def Follows (n : Nat) (x : Prog CrtFault Console Unit) (y : Prog CrtFault Crt Unit) : Prop :=
  ∀ s t, y s.crt = .ok () t → ∃ k ≤ n, x s = .ok () { s with crt := t, polls := s.polls + k }

section follows

variable {n n' left : Nat} {x x' : Prog CrtFault Console Unit} {y y' : Prog CrtFault Crt Unit} {c port : Word}
  {mask : Byte} {s : Console}

theorem Follows.seq (h : Follows n x y) (h' : Follows n' x' y') :
    Follows (n + n') (x >>= fun _ => x') (y >>= fun _ => y') := by
  intro s u hrun
  obtain ⟨⟨⟩, t, hy, hy'⟩ := bind_eq_ok.mp hrun
  obtain ⟨k, hk, hx⟩ := h s t hy
  obtain ⟨k', hk', hx'⟩ := h' { s with crt := t, polls := s.polls + k } u hy'
  refine ⟨k + k', Nat.add_le_add hk hk', ?_⟩
  rw [bind_ok hx, hx', Nat.add_assoc]

theorem follows_onCrt (y : Prog CrtFault Crt Unit) : Follows 0 (Console.onCrt y) y :=
  fun _ _ hrun => ⟨0, Nat.le_refl 0, zoom_ok hrun⟩

/-- A wait ends, be the port ready or not. -/
theorem follows_await (port : Word) (mask : Byte) (left : Nat) :
    Follows (left + 1) (Console.await port mask left) (pure ()) := by
  induction left with
  | zero =>
    rintro s t hrun
    obtain ⟨-, rfl⟩ := pure_eq_ok.mp hrun
    exact ⟨1, Nat.le_refl 1, rfl⟩
  | succ left ih =>
    rintro s t hrun
    obtain ⟨-, rfl⟩ := pure_eq_ok.mp hrun
    have hread : Console.inb port s = .ok (s.status port s.polls) { s with polls := s.polls + 1 } := rfl
    rw [Console.await, bind_ok hread]
    by_cases hready : s.status port s.polls &&& mask ≠ 0
    · rw [if_pos hready]
      exact ⟨1, by omega, rfl⟩
    · rw [if_neg hready]
      obtain ⟨k, hk, hx⟩ := ih { s with polls := s.polls + 1 } s.crt rfl
      refine ⟨k + 1, by omega, ?_⟩
      rw [hx, Nat.add_assoc, Nat.add_comm 1 k]

theorem follows_consPutcWith {put : Word → Prog CrtFault Console Unit} {put' : Word → Prog CrtFault Crt Unit}
    (h : Follows n (put c) (put' c)) :
    Follows (2 * 12801 + n) (Console.consPutcWith put c) (consPutcWith put' c) := by
  have hser := (follows_await 0x3FD 0x20 12800).seq (follows_onCrt (serialPutc c))
  have hlpt := (follows_await 0x379 0x80 12800).seq (follows_onCrt (lptPutc c))
  have hall := hser.seq (hlpt.seq h)
  intro s t hrun
  obtain ⟨k, hk, hx⟩ := hall s t hrun
  exact ⟨k, by omega, hx⟩

theorem follows_cgaPutcFor_other (depth : Nat) (h : (withAttribute c &&& 0xFF).toNat ≠ 9) :
    Follows 0 (Console.cgaPutcFor (depth + 1) c) (cgaPutcFor (depth + 1) c) := by
  have hswitch : cgaSwitch (fun _ => stop .deep) (withAttribute c) =
      cgaSwitch (consPutcWith (cgaPutcFor depth)) (withAttribute c) := by
    unfold cgaSwitch
    split <;> first | rfl | contradiction
  have hall := (follows_onCrt (cgaSwitch (consPutcWith (cgaPutcFor depth)) (withAttribute c))).seq
    ((follows_onCrt cgaScroll).seq (follows_onCrt cgaCursor))
  intro s t hrun
  obtain ⟨k, hk, hx⟩ := hall s t hrun
  refine ⟨k, hk, ?_⟩
  rw [Console.cgaPutcFor, Console.cgaSwitch, if_neg h, hswitch]
  exact hx

/-- A character and the five spaces of a tab are each waited for at both ports. -/
theorem follows_cputchar (c : Word) : Follows (12 * 12801) (Console.cputchar c) (consPutc c) := by
  by_cases h9 : (withAttribute c &&& 0xFF).toNat = 9
  · have hspace : Follows (2 * 12801 + 0) _ _ :=
      follows_consPutcWith (follows_cgaPutcFor_other (c := 0x20) 0 (by decide))
    have hcga := (hspace.seq (hspace.seq (hspace.seq (hspace.seq hspace)))).seq
      ((follows_onCrt cgaScroll).seq (follows_onCrt cgaCursor))
    have hput : Follows (10 * 12801) (Console.cgaPutcFor 2 c) (cgaPutcFor 2 c) := by
      intro s t hrun
      rw [cgaPutcFor, cgaSwitch, h9] at hrun
      obtain ⟨k, hk, hx⟩ := hcga s t hrun
      refine ⟨k, by omega, ?_⟩
      rw [Console.cgaPutcFor, Console.cgaSwitch, if_pos h9]
      exact hx
    exact follows_consPutcWith hput
  · intro s t hrun
    obtain ⟨k, hk, hx⟩ := follows_consPutcWith (follows_cgaPutcFor_other 1 h9) s t hrun
    exact ⟨k, by omega, hx⟩

end follows

/-- What a text does that is put out with `scr` on the screen. -/
structure PutsOut (s : Console) (scr : Screen) (cs : List Word) (t : Console) : Prop where
  shows : Shows t.crt (cs.foldl Screen.putc scr)
  status : t.status = s.status
  polls : t.polls ≤ s.polls + cs.length * (12 * 12801)
  addr : t.crt.addr6845 = s.crt.addr6845
  ports : ∃ log, t.crt.ports = s.crt.ports ++ log ∧ ∀ l : Lines, l.divisor = false →
    l.Gets (l.outs s.crt.addr6845 log) (cs.flatMap consBytes) (cs.flatMap consBytes) ∧
      (l.cursor = s.crt.crtPos → (l.outs s.crt.addr6845 log).cursor = t.crt.crtPos)

theorem PutsOut.nil {s : Console} {scr : Screen} (h : Shows s.crt scr) : PutsOut s scr [] s :=
  ⟨h, rfl, by simp, rfl, [], by simp, fun _ hl => ⟨.refl hl, id⟩⟩

theorem PutsOut.cons {s u t : Console} {scr : Screen} {c : Word} {cs : List Word}
    (h : PutsOut s scr [c] u) (h' : PutsOut u (scr.putc c) cs t) : PutsOut s scr (c :: cs) t := by
  obtain ⟨log, hlog, hgets⟩ := h.ports
  obtain ⟨log', hlog', hgets'⟩ := h'.ports
  have hpolls := h.polls
  have hpolls' := h'.polls
  refine ⟨h'.shows, h'.status.trans h.status, ?_, h'.addr.trans h.addr, log ++ log', ?_, fun l hl => ?_⟩
  · rw [List.length_cons]
    rw [List.length_singleton] at hpolls
    omega
  · rw [hlog', hlog, List.append_assoc]
  · obtain ⟨hget, hcur⟩ := hgets l hl
    obtain ⟨hget', hcur'⟩ := hgets' _ hget.divisor
    rw [h.addr] at hget' hcur'
    rw [outs_append]
    refine ⟨?_, fun hl => hcur' (hcur hl)⟩
    have hall := hget.trans hget'
    rwa [List.flatMap_singleton] at hall

theorem cputchar_putsOut (s : Console) (scr : Screen) (c : Word) (hscr : Shows s.crt scr)
    (haddr : VideoPort s.crt.addr6845) :
    ∃ t, Console.cputchar c s = .ok () t ∧ PutsOut s scr [c] t := by
  have hdraws : Draws (consPutc c) s.crt (scr.putc c) :=
    consPutcWith_draws hscr fun t ht => cgaPutc_draws ht c
  obtain ⟨u, hu, hshows, -⟩ := hdraws
  obtain ⟨hsame, log, hlog, hgets⟩ := sends_consPutc s.crt u haddr hu
  obtain ⟨-, log', hlog', hpoints⟩ := points_consPutc s.crt u haddr hu
  obtain rfl := List.append_cancel_left (hlog.symm.trans hlog')
  obtain ⟨k, hk, hput⟩ := follows_cputchar c s u hu
  refine ⟨_, hput, hshows, rfl, ?_, hsame, log, hlog, fun l hl => ⟨?_, fun _ => hpoints l⟩⟩
  · rw [List.length_singleton, Nat.one_mul]
    exact Nat.add_le_add_left hk _
  · rw [List.flatMap_singleton]
    exact hgets l hl

theorem cputchars_putsOut (s : Console) (scr : Screen) (cs : List Word) (hscr : Shows s.crt scr)
    (haddr : VideoPort s.crt.addr6845) : ∃ t, Console.cputchars cs s = .ok () t ∧ PutsOut s scr cs t := by
  induction cs generalizing s scr with
  | nil => exact ⟨s, rfl, .nil hscr⟩
  | cons c cs ih =>
    obtain ⟨u, hput, hu⟩ := cputchar_putsOut s scr c hscr haddr
    obtain ⟨t, hputs, ht⟩ := ih u (scr.putc c) hu.shows (show VideoPort u.crt.addr6845 from hu.addr ▸ haddr)
    exact ⟨t, by rw [Console.cputchars, bind_ok hput, hputs], hu.cons ht⟩

/-- Whatever the status ports answer, and however long the text: console output ends after a bounded
number of polls, draws the text, and sends the same bytes, in order, over the serial line and to the
printer. Behind a tab both get its spaces as well. -/
theorem cputchars_devices (s : Console) (scr : Screen) (cs : List Word) (hscr : Shows s.crt scr)
    (haddr : VideoPort s.crt.addr6845) : ∃ t, Console.cputchars cs s = .ok () t ∧
      Shows t.crt (cs.foldl Screen.putc scr) ∧ t.polls ≤ s.polls + cs.length * (12 * 12801) ∧
      ∃ log, t.crt.ports = s.crt.ports ++ log ∧ ∀ l : Lines, l.divisor = false →
        (l.outs s.crt.addr6845 log).sent = l.sent ++ cs.flatMap consBytes ∧
        (l.outs s.crt.addr6845 log).printed = l.printed ++ cs.flatMap consBytes := by
  obtain ⟨t, ht, hputs⟩ := cputchars_putsOut s scr cs hscr haddr
  obtain ⟨log, hlog, hgets⟩ := hputs.ports
  exact ⟨t, ht, hputs.shows, hputs.polls, log, hlog, fun l hl =>
    ⟨(hgets l hl).1.sent, (hgets l hl).1.printed⟩⟩

/-- A tab, with ports that are never ready. -/
theorem cputchars_devices_tab : ∃ t,
    Console.cputchars [9] ⟨⟨fun _ => 0, 0, 0x3D4, []⟩, fun _ _ => 0, 0⟩ = .ok () t ∧
      t.polls ≤ 12 * 12801 ∧
      (Lines.outs 0x3D4 ⟨false, [], 0, [], 0, fun _ => 0⟩ t.crt.ports).sent = [9, 32, 32, 32, 32, 32] := by
  obtain ⟨scr, hscr⟩ := exists_shows (s := ⟨fun _ => 0, 0, 0x3D4, []⟩) (by decide)
  obtain ⟨t, ht, -, hpolls, log, hlog, hgets⟩ :=
    cputchars_devices ⟨⟨fun _ => 0, 0, 0x3D4, []⟩, fun _ _ => 0, 0⟩ scr [9] hscr (.inr rfl)
  refine ⟨t, ht, by simpa using hpolls, ?_⟩
  rw [hlog, List.nil_append, (hgets _ rfl).1]
  decide

end Jos
