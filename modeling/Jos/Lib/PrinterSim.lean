import Jos.Library.Simulation
import Jos.Lib.FormatRules

/-! vprintfmt with two callbacks: when these go together, so does all of it. -/
namespace Jos

open Prog

namespace Printer

variable {ε δ σ τ : Type} {S : Sim σ τ} {pr : Printer ε σ} {pr' : Printer δ τ}

/-- The loads and the callbacks of two printers go together. -/
structure Goes (S : Sim σ τ) (pr : Printer ε σ) (pr' : Printer δ τ) : Prop where
  load : ∀ a, S.Simulates (pr.load a) (pr'.load a)
  putch : ∀ w, S.Simulates (pr.putch w) (pr'.putch w)

theorem Goes.read (h : Goes S pr pr') (p : CharPtr) : S.Simulates (pr.read p) (pr'.read p) := by
  cases p with
  | mem a => exact h.load a
  | text s i =>
    unfold Printer.read
    exact Sim.simulates_ite (fun _ => Sim.simulates_pure _) fun _ => Sim.simulates_stop _

theorem Goes.putTimes (h : Goes S pr pr') (padc : Word) (n : Nat) :
    S.Simulates (pr.putTimes padc n) (pr'.putTimes padc n) := by
  induction n with
  | zero => exact Sim.simulates_pure ()
  | succ n ih => exact (h.putch padc).bind fun _ => ih

theorem Goes.pad (h : Goes S pr pr') (padc width : Word) :
    S.Simulates (pr.pad padc width) (pr'.pad padc width) :=
  (h.putTimes padc _).bind fun _ => Sim.simulates_pure _

theorem Goes.printnum (h : Goes S pr pr') (fuel : Nat) (num : BitVec 64) (base width padc : Word) :
    S.Simulates (pr.printnum fuel num base width padc) (pr'.printnum fuel num base width padc) := by
  induction fuel generalizing num width with
  | zero => exact Sim.simulates_stop _
  | succ fuel ih =>
    unfold Printer.printnum
    refine Sim.Simulates.bind ?_ fun _ => h.putch _
    exact Sim.simulates_ite (fun _ => ih _ _) fun _ => h.putTimes _ _

theorem Goes.strnlen (h : Goes S pr pr') (size : Nat) (p : CharPtr) :
    S.Simulates (pr.strnlen size p) (pr'.strnlen size p) := by
  induction size generalizing p with
  | zero => exact Sim.simulates_pure 0
  | succ size ih =>
    unfold Printer.strnlen
    refine (h.read p).bind fun c => ?_
    refine Sim.simulates_ite (fun _ => Sim.simulates_pure 0) fun _ => ?_
    exact (ih p.next).bind fun n => Sim.simulates_pure _

theorem Goes.putChars (h : Goes S pr pr') (altflag : Bool) (fuel : Nat) (p : CharPtr)
    (precision width : Word) :
    S.Simulates (pr.putChars altflag fuel p precision width)
      (pr'.putChars altflag fuel p precision width) := by
  induction fuel generalizing p precision width with
  | zero => exact Sim.simulates_stop _
  | succ fuel ih =>
    unfold Printer.putChars
    refine (h.read p).bind fun c => ?_
    refine Sim.simulates_ite (fun _ => Sim.simulates_pure width) fun _ => ?_
    cases countDown precision with
    | none => exact Sim.simulates_pure width
    | some precision => exact (h.putch _).bind fun _ => ih _ _ _

theorem Goes.putString (h : Goes S pr pr') (fuel : Nat) (d : Directive) (p : CharPtr) :
    S.Simulates (pr.putString fuel d p) (pr'.putString fuel d p) := by
  have hbefore : S.Simulates (pr.padBefore d p) (pr'.padBefore d p) := by
    unfold Printer.padBefore
    refine Sim.simulates_ite (fun _ => ?_) fun _ => Sim.simulates_pure _
    exact (h.strnlen _ p).bind fun n => h.pad _ _
  refine hbefore.bind fun width => (h.putChars _ _ _ _ _).bind fun width => ?_
  exact (h.pad _ _).bind fun _ => Sim.simulates_pure ()

theorem Goes.readNumber (h : Goes S pr pr') (fuel : Nat) (fmt : CharPtr) (ch : Byte) (precision : Word) :
    S.Simulates (pr.readNumber fuel fmt ch precision) (pr'.readNumber fuel fmt ch precision) := by
  induction fuel generalizing fmt ch precision with
  | zero => exact Sim.simulates_stop _
  | succ fuel ih =>
    unfold Printer.readNumber
    refine (h.read fmt).bind fun c => ?_
    exact Sim.simulates_ite (fun _ => Sim.simulates_pure _) fun _ => ih _ _ _

theorem Goes.reswitch (h : Goes S pr pr') (fuel : Nat) (fmt : CharPtr) (ap : VaList) (d : Directive) :
    S.Simulates (pr.reswitch fuel fmt ap d) (pr'.reswitch fuel fmt ap d) := by
  induction fuel generalizing fmt ap d with
  | zero => exact Sim.simulates_stop _
  | succ fuel ih =>
    unfold Printer.reswitch
    refine (h.read fmt).bind fun c => ?_
    refine Sim.simulates_ite (fun _ => ih _ _ _) fun _ => ?_
    refine Sim.simulates_ite (fun _ => ih _ _ _) fun _ => ?_
    refine Sim.simulates_ite (fun _ => (h.readNumber _ _ _ _).bind fun r => ih _ _ _) fun _ => ?_
    refine Sim.simulates_ite (fun _ => ih _ _ _) fun _ => ?_
    refine Sim.simulates_ite (fun _ => ih _ _ _) fun _ => ?_
    refine Sim.simulates_ite (fun _ => ih _ _ _) fun _ => ?_
    exact Sim.simulates_ite (fun _ => ih _ _ _) fun _ => Sim.simulates_pure _

theorem Goes.backUp (h : Goes S pr pr') (fuel : Nat) (fmt : CharPtr) :
    S.Simulates (pr.backUp fuel fmt) (pr'.backUp fuel fmt) := by
  induction fuel generalizing fmt with
  | zero => exact Sim.simulates_stop _
  | succ fuel ih =>
    unfold Printer.backUp
    refine (h.read _).bind fun c => ?_
    exact Sim.simulates_ite (fun _ => Sim.simulates_pure _) fun _ => ih _

variable {printfmt : CharPtr → VaList → Prog ε σ Unit} {printfmt' : CharPtr → VaList → Prog δ τ Unit}

theorem Goes.putError (h : Goes S pr pr') (hp : ∀ p ap, S.Simulates (printfmt p ap) (printfmt' p ap))
    (fuel : Nat) (err : Word) :
    S.Simulates (pr.putError fuel printfmt err) (pr'.putError fuel printfmt' err) := by
  simp only [Printer.putError]
  generalize (if err.toInt < 0 then -err else err) = err
  cases if maxError ≤ err.toInt then none else errorString err with
  | none => exact hp _ _
  | some s => exact h.putString _ _ _

theorem Goes.convert (h : Goes S pr pr') (hp : ∀ p ap, S.Simulates (printfmt p ap) (printfmt' p ap))
    (fuel : Nat) (ch : Byte) (fmt : CharPtr) (ap : VaList) (d : Directive) :
    S.Simulates (pr.convert fuel printfmt ch fmt ap d) (pr'.convert fuel printfmt' ch fmt ap d) := by
  have hpure : ∀ r : CharPtr × VaList,
      S.Simulates (pure r : Prog ε σ (CharPtr × VaList)) (pure r : Prog δ τ (CharPtr × VaList)) :=
    fun r => Sim.simulates_pure r
  have hnumber := fun num base => h.printnum numberFuel num base d.width (d.padc.signExtend 32)
  unfold Printer.convert
  refine Sim.simulates_ite (fun _ => (h.putch _).bind fun _ => hpure _) fun _ => ?_
  refine Sim.simulates_ite (fun _ => (h.putError hp _ _).bind fun _ => hpure _) fun _ => ?_
  refine Sim.simulates_ite (fun _ => (h.putString _ _ _).bind fun _ => hpure _) fun _ => ?_
  refine Sim.simulates_ite (fun _ => Sim.simulates_ite
    (fun _ => (h.putch _).bind fun _ => (hnumber _ _).bind fun _ => hpure _)
    fun _ => (hnumber _ _).bind fun _ => hpure _) fun _ => ?_
  refine Sim.simulates_ite (fun _ => (hnumber _ _).bind fun _ => hpure _) fun _ => ?_
  refine Sim.simulates_ite (fun _ => (hnumber _ _).bind fun _ => hpure _) fun _ => ?_
  refine Sim.simulates_ite (fun _ => (h.putch _).bind fun _ => (h.putch _).bind fun _ =>
    (hnumber _ _).bind fun _ => hpure _) fun _ => ?_
  refine Sim.simulates_ite (fun _ => (hnumber _ _).bind fun _ => hpure _) fun _ => ?_
  refine Sim.simulates_ite (fun _ => (h.putch _).bind fun _ => hpure _) fun _ => ?_
  exact (h.putch _).bind fun _ => (h.backUp _ _).bind fun _ => hpure _

/-- vprintfmt does the same with both, nested calls included. -/
theorem Goes.vprintfmt (h : Goes S pr pr') (fuel : Nat) (fmt : CharPtr) (ap : VaList) :
    S.Simulates (pr.vprintfmt fuel fmt ap) (pr'.vprintfmt fuel fmt ap) := by
  induction fuel generalizing fmt ap with
  | zero => exact Sim.simulates_stop _
  | succ fuel ih =>
    unfold Printer.vprintfmt
    refine (h.read fmt).bind fun c => ?_
    refine Sim.simulates_ite (fun _ => ?_) fun _ => ?_
    · refine (h.reswitch _ _ _ _).bind fun e => ?_
      exact (h.convert ih _ _ _ _ _).bind fun r => ih _ _
    · refine Sim.simulates_ite (fun _ => Sim.simulates_pure ()) fun _ => ?_
      exact (h.putch _).bind fun _ => ih _ _

end Printer

end Jos
