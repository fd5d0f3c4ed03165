import Jos.Kern.ConsOutput
import Jos.Kern.Runcmd

/-! cons_init (kern/console.c): the adapter it finds, the cursor it takes over, and the serial port. -/
namespace Jos

open Prog

def monoBase : Word := 0x3B4

def cgaBase : Word := 0x3D4

/-- The video adapter there is, a colour one at CGA_BUF or a monochrome one at MONO_BUF. -/
structure Video where
  colour : Bool
  buf : Nat → BitVec 16
  /-- what is read at CGA_BUF when there is nothing -/
  bus : BitVec 16

namespace Video

def base (v : Video) : Word := if v.colour then cgaBase else monoBase

/-- The first cell at CGA_BUF. -/
def cgaCell (v : Video) : BitVec 16 := if v.colour then v.buf 0 else v.bus

def setCgaCell (v : Video) (c : BitVec 16) : Video :=
  if v.colour then { v with buf := Function.update v.buf 0 c } else v

/-- The cells an adapter with this controller has. -/
def bufAt (v : Video) (addr : Word) : Nat → BitVec 16 := if addr = v.base then v.buf else fun _ => v.bus

/-- inb from a controller. -/
def inb (v : Video) (l : Lines) (port : Word) : Byte := if port = v.base + 1 then l.regs l.index else 0xFF

end Video

/-- cga_init. -/
def cgaInit (v : Video) (l : Lines) : Video × Crt :=
  let was := v.cgaCell
  let v := v.setCgaCell 0xA55A
  let found := if v.cgaCell ≠ 0xA55A then (v, monoBase) else (v.setCgaCell was, cgaBase)
  let v := found.1
  let addr := found.2
  -- extract cursor location
  let l := l.out v.base (addr, 14)
  let hi := v.inb l (addr + 1)
  let l := l.out v.base (addr, 15)
  let lo := v.inb l (addr + 1)
  let pos : Word := hi.setWidth 32 <<< 8 ||| lo.setWidth 32
  (v, ⟨v.bufAt addr, pos.setWidth 16, addr, [(addr, 14), (addr, 15)]⟩)

namespace Console

def outb (port : Word) (data : Byte) : Prog CrtFault Console Unit := onCrt (Jos.outb port data)

/-- serial_init, with what becomes of serial_exists. -/
def serialInit : Prog CrtFault Console Bool := do
  outb 0x3FA 0
  -- the speed: 115200 / 9600
  outb 0x3FB 0x80
  outb 0x3F8 12
  outb 0x3F9 0
  outb 0x3FB 0x03
  outb 0x3FC 0
  outb 0x3F9 0x01
  let lsr ← inb 0x3FD
  let _ ← inb 0x3FA
  let _ ← inb 0x3F8
  pure (lsr ≠ 0xFF)

def noSerialPort : List Word := (ascii "Serial port does not exist!\n".toList).map (·.setWidth 32)

/-- cons_init, once cga_init has returned. -/
def consInit : Prog CrtFault Console Bool := do
  let serialExists ← serialInit
  if serialExists then pure () else cputchars noSerialPort
  pure serialExists

end Console

/-- What cons_init puts out. -/
def initText (status : Word → Nat → Byte) : List Word :=
  if status 0x3FD 0 = 0xFF then Console.noSerialPort else []

section init

variable {v : Video} {l : Lines} {s : Console} {status : Word → Nat → Byte}

theorem videoPort_base (v : Video) : VideoPort v.base := by
  unfold Video.base
  split
  · exact .inr rfl
  · exact .inl rfl

theorem joinBytes_pos (hi lo : Byte) :
    (hi.setWidth 32 <<< 8 ||| lo.setWidth 32 : Word).setWidth 16 =
      hi.setWidth 16 <<< 8 ||| lo.setWidth 16 := by
  refine BitVec.eq_of_getLsbD_eq fun j hj => ?_
  interval_cases j <;> simp

/-- cga_init finds the adapter, and leaves its cells alone. -/
theorem cgaInit_eq (h : v.colour = true ∨ v.bus ≠ 0xA55A) :
    cgaInit v l = (v, ⟨v.buf, l.cursor, v.base, [(v.base, 14), (v.base, 15)]⟩) := by
  have hfound : (if (v.setCgaCell 0xA55A).cgaCell ≠ 0xA55A then (v.setCgaCell 0xA55A, monoBase)
      else ((v.setCgaCell 0xA55A).setCgaCell v.cgaCell, cgaBase)) = (v, v.base) := by
    obtain ⟨colour, buf, bus⟩ := v
    cases colour with
    | true => simp [Video.setCgaCell, Video.cgaCell, Video.base]
    | false =>
      have hbus : bus ≠ 0xA55A := h.resolve_left Bool.false_ne_true
      simp only [Video.setCgaCell, Video.cgaCell, Video.base, Bool.false_eq_true, if_false]
      rw [if_pos hbus]
  have hchoose : ∀ (l : Lines) (i : Byte), v.inb (l.out v.base (v.base, i)) (v.base + 1) = l.regs i := by
    intro l i
    rw [Video.inb, if_pos rfl]
    rcases videoPort_base v with hb | hb <;> rw [hb] <;> rfl
  have hregs : (l.out v.base (v.base, 14)).regs = l.regs := by
    rcases videoPort_base v with hb | hb <;> rw [hb] <;> rfl
  unfold cgaInit
  dsimp only
  rw [hfound]
  dsimp only
  rw [hchoose, hchoose, hregs, joinBytes_pos, Video.bufAt, if_pos rfl]
  rfl

/-- What serial_init tells the serial port. -/
def serialSetup : List (Word × Byte) :=
  [(0x3FA, 0), (0x3FB, 0x80), (0x3F8, 12), (0x3F9, 0), (0x3FB, 0x03), (0x3FC, 0), (0x3F9, 0x01)]

theorem serialInit_eq : Console.serialInit s = .ok (s.status 0x3FD s.polls ≠ 0xFF)
    { s with crt := { s.crt with ports := s.crt.ports ++ serialSetup }, polls := s.polls + 3 } := by
  have hports : s.crt.ports ++ serialSetup = s.crt.ports ++ [(0x3FA, 0)] ++ [(0x3FB, 0x80)] ++
      [(0x3F8, 12)] ++ [(0x3F9, 0)] ++ [(0x3FB, 0x03)] ++ [(0x3FC, 0)] ++ [(0x3F9, 0x01)] := by
    simp [serialSetup]
  rw [hports]
  rfl

/-- Nothing is sent while the divisor is set, and then the port is as before. -/
theorem outs_serialSetup {addr : Word} (h : VideoPort addr) :
    l.outs addr serialSetup = { l with divisor := false } := by
  rcases h with rfl | rfl <;> simp [Lines.outs, Lines.out, serialSetup]

/-- cons_init complains of a missing serial port, with whatever it has found on the screen. -/
theorem consInit_putsOut {scr : Screen} (hscr : Shows s.crt scr) (haddr : VideoPort s.crt.addr6845)
    (hpolls : s.polls = 0) : ∃ t, Console.consInit s = .ok (s.status 0x3FD 0 ≠ 0xFF) t ∧
      PutsOut { s with crt := { s.crt with ports := s.crt.ports ++ serialSetup }, polls := s.polls + 3 } scr
        (initText s.status) t := by
  have hstart : Shows { s.crt with ports := s.crt.ports ++ serialSetup } scr := ⟨hscr.cells, hscr.pos⟩
  rw [Console.consInit, bind_ok serialInit_eq, hpolls, initText]
  by_cases hser : s.status 0x3FD 0 = 0xFF
  · obtain ⟨t, ht, hputs⟩ := cputchars_putsOut
      { s with crt := { s.crt with ports := s.crt.ports ++ serialSetup }, polls := 0 + 3 } scr
      Console.noSerialPort hstart haddr
    refine ⟨t, ?_, by rwa [if_pos hser]⟩
    simp only [hser, ne_eq, not_true_eq_false, decide_false, Bool.false_eq_true, if_false]
    rw [bind_ok ht]
    rfl
  · refine ⟨_, ?_, by rw [if_neg hser]; exact .nil hstart⟩
    simp only [hser, ne_eq, not_false_eq_true, decide_true, if_true]
    rfl

/-- Whatever adapter there is, with its cursor on the screen, and whatever the status ports answer:
cons_init leaves what the screen shows, complains of a missing serial port and nothing else, and sends
nothing while it sets the port's speed. Any text comes out behind that, and in the end the cursor of the
controller is where cga_init would go on. -/
theorem consInit_cputchars (v : Video) (l : Lines) (status : Word → Nat → Byte) (cs : List Word)
    (hbus : v.colour = true ∨ v.bus ≠ 0xA55A) (hcur : l.cursor.toNat < crtSize) :
    ∃ scr t u, Shows ⟨v.buf, l.cursor, v.base, []⟩ scr ∧ (cgaInit v l).1 = v ∧
      Console.consInit ⟨(cgaInit v l).2, status, 0⟩ = .ok (status 0x3FD 0 ≠ 0xFF) t ∧
      Console.cputchars cs t = .ok () u ∧
      Shows u.crt ((initText status ++ cs).foldl Screen.putc scr) ∧
      (l.outs v.base u.crt.ports).sent = l.sent ++ (initText status ++ cs).flatMap consBytes ∧
      (l.outs v.base u.crt.ports).printed = l.printed ++ (initText status ++ cs).flatMap consBytes ∧
      (cgaInit { v with buf := u.crt.crtBuf } (l.outs v.base u.crt.ports)).2 =
        { u.crt with ports := [(v.base, 14), (v.base, 15)] } := by
  obtain ⟨scr, hscr⟩ := exists_shows (s := ⟨v.buf, l.cursor, v.base, []⟩) hcur
  have hinit : cgaInit v l = _ := cgaInit_eq hbus
  rw [hinit]
  have hstart : Shows ⟨v.buf, l.cursor, v.base, [(v.base, 14), (v.base, 15)]⟩ scr := ⟨hscr.cells, hscr.pos⟩
  obtain ⟨t, ht, hputs⟩ := consInit_putsOut
    (s := ⟨⟨v.buf, l.cursor, v.base, [(v.base, 14), (v.base, 15)]⟩, status, 0⟩) hstart (videoPort_base v) rfl
  have hbase : t.crt.addr6845 = v.base := hputs.addr
  obtain ⟨u, hu, hputs'⟩ := cputchars_putsOut t _ cs hputs.shows (hbase ▸ videoPort_base v)
  refine ⟨scr, t, u, hscr, rfl, ht, hu, ?_, ?_⟩
  · rw [List.foldl_append]
    exact hputs'.shows
  obtain ⟨log, hlog, hgets⟩ := hputs.ports
  obtain ⟨log', hlog', hgets'⟩ := hputs'.ports
  have hchosen : l.outs v.base [(v.base, 14), (v.base, 15)] = { l with index := 15 } := by
    rcases videoPort_base v with hb | hb <;> rw [hb] <;> rfl
  have hready : l.outs v.base ([(v.base, 14), (v.base, 15)] ++ serialSetup) =
      { l with index := 15, divisor := false } := by
    rw [outs_append, hchosen, outs_serialSetup (videoPort_base v)]
  obtain ⟨hget, hcursor⟩ := hgets { l with index := 15, divisor := false } rfl
  obtain ⟨hget', hcursor'⟩ := hgets' _ hget.divisor
  rw [hbase] at hget' hcursor'
  have hall : l.outs v.base u.crt.ports =
      (Lines.outs v.base (Lines.outs v.base { l with index := 15, divisor := false } log) log') := by
    rw [hlog', hlog, outs_append, outs_append, hready]
  have hend : (l.outs v.base u.crt.ports).cursor = u.crt.crtPos := by
    rw [hall]
    exact hcursor' (hcursor rfl)
  have hboth := hget.trans hget'
  rw [← List.flatMap_append] at hboth
  refine ⟨?_, ?_, ?_⟩
  · rw [hall]
    exact hboth.sent
  · rw [hall]
    exact hboth.printed
  · have haddr : u.crt.addr6845 = v.base := hputs'.addr.trans hbase
    have hagain : cgaInit { v with buf := u.crt.crtBuf } (l.outs v.base u.crt.ports) = _ := cgaInit_eq hbus
    rw [hagain, hend]
    exact congrArg (fun a => Crt.mk u.crt.crtBuf u.crt.crtPos a [(v.base, 14), (v.base, 15)]) haddr.symm

def secondRow : Lines := ⟨true, [], 0, [], 0, fun i => if i = 15 then 80 else 0⟩

/-- A colour adapter with its cursor in the second row, and no serial port: the letter comes behind the
complaint. -/
theorem consInit_cputchars_noSerial : ∃ t u,
    Console.consInit ⟨(cgaInit ⟨true, fun _ => 0x0720, 0⟩ secondRow).2, fun _ _ => 0xFF, 0⟩ = .ok false t ∧
    Console.cputchars [0x78] t = .ok () u ∧
    (secondRow.outs cgaBase u.crt.ports).sent =
      (Console.noSerialPort ++ [0x78]).flatMap consBytes := by
  obtain ⟨scr, t, u, -, -, ht, hu, -, hsent, -⟩ := consInit_cputchars ⟨true, fun _ => 0x0720, 0⟩
    secondRow (fun _ _ => 0xFF) [0x78] (.inl rfl) (by decide)
  exact ⟨t, u, ht, hu, hsent⟩

end init

end Jos
