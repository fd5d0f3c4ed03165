import Jos.Library.Zoom
import Jos.Kern.Backtrace
import Jos.Kern.Pgmod
import Jos.Kern.Runcmd
import Jos.Lib.LineEdit

/-! The kernel monitor (kern/monitor.c): it reads a line, takes it for a command, and runs it, until
the command is exit. -/
namespace Jos

open Prog

/-- What does not change while the monitor runs. -/
structure MonContext where
  /-- readline's buffer -/
  buf : Word
  /-- what runcmd's array of arguments holds at first -/
  argv : Nat → Word
  /-- the symbol tables the kernel is linked with -/
  linked : UserStabData
  ptrdiff : Word → Word
  /-- what mon_backtrace reads -/
  ebp : Word

/-- What is printed for a line. -/
inductive Reply where
  | nothing
  | tooMany
  | unknown (name : List Byte)
  | help
  | kerninfo
  | meminfo
  | goodbye
  | backtrace (frames : List FrameLines)
  | showmappings (table : Except (List String) (Table Mapping))
  | pgmod (text : List String)
  | memxv (table : Except (List String) (Table (Option Word)))
  | memxp (table : Except (List String) (Table (Option Word)))

/-- A command of the table, with its arguments; whether it returns -1, which ends the monitor. -/
def MonFunc.call (ctx : MonContext) (argv : List (List Byte)) : MonFunc → Kern (Reply × Bool)
  | .help => pure (.help, false)
  | .kerninfo => pure (.kerninfo, false)
  | .meminfo => pure (.meminfo, false)
  | .backtrace => do
    let frames ← monBacktrace ctx.linked ctx.ptrdiff ctx.ebp
    pure (.backtrace frames, false)
  | .showmappings => do
    let table ← monShowmappings argv
    pure (.showmappings table, false)
  | .pgmod => do
    let text ← monPgmodArgs argv
    pure (.pgmod text, false)
  | .memxv => do
    let table ← monMemxv argv
    pure (.memxv table, false)
  | .memxp => do
    let table ← monMemxp argv
    pure (.memxp table, false)
  | .exit => pure (.goodbye, true)

/-- The monitor's line and the kernel it looks at. -/
structure MonState where
  line : LineIn
  kernel : Kernel

inductive MonStop where
  | line (fault : LineFault)
  | kernel (why : Stop)

def onLine {α : Type} : Prog LineFault LineIn α → Prog MonStop MonState α :=
  zoom .line MonState.line fun line s => { s with line := line }

def onKernel {α : Type} : Kern α → Prog MonStop MonState α :=
  zoom .kernel MonState.kernel fun kernel s => { s with kernel := kernel }

/-- Memory as runcmd finds it, with the line in readline's buffer. -/
def MonState.memory (s : MonState) (buf : Word) : Word → Byte := fun a =>
  if (a - buf).toNat < buflen then s.line.buf (a - buf).toNat else s.kernel.peek a

/-- The string at an address, up to its NUL. -/
def cstring (mem : Word → Byte) : Nat → Word → List Byte
  | 0, _ => []
  | n + 1, p => if mem p = 0 then [] else mem p :: cstring mem n (p + 1)

/-- The argument strings. -/
def argStrings (mem : Word → Byte) (argc : Nat) (argv : Nat → Word) : List (List Byte) :=
  (List.range argc).map fun i => cstring mem (2 ^ 32) (argv i)

/-- runcmd on readline's buffer, with the command it runs. -/
def runLine (ctx : MonContext) : Prog MonStop MonState (Reply × Bool) := do
  let s ← read
  match runcmd (2 ^ 32) (s.memory ctx.buf) ctx.buf ctx.argv with
  | none => stop (.kernel .spin)
  | some (reaction, mem) => do
    update fun s => { s with line := { s.line with buf := fun i => mem (ctx.buf + BitVec.ofNat 32 i) } }
    match reaction with
    | .nothing => pure (.nothing, false)
    | .tooMany => pure (.tooMany, false)
    | .unknown name => pure (.unknown (cstring mem (2 ^ 32) name), false)
    | .invoke func argc argv => onKernel (func.call ctx (argStrings mem argc argv))

def monPrompt : List Byte := ascii ['K', '>', ' ']

/-- The loop of monitor, for at most the given number of lines. -/
def monitorLoop (ctx : MonContext) : Nat → Prog MonStop MonState (List Reply)
  | 0 => stop (.line .waits)
  | rounds + 1 => do
    let got ← onLine (readline (some monPrompt))
    if got then do
      let (reply, leave) ← runLine ctx
      if leave then
        pure [reply]
      else do
        let replies ← monitorLoop ctx rounds
        pure (reply :: replies)
    else
      monitorLoop ctx rounds

/-- monitor, behind its greeting. There are no more lines than characters to come. -/
def monitorTyped (ctx : MonContext) : Prog MonStop MonState (List Reply) := do
  let s ← read
  monitorLoop ctx (s.line.input.length + 1)

/-! What the monitor is for. -/

/-- The words of a text. -/
def arguments (text : List Byte) : List (List Byte) :=
  (text.splitOnP (IsBlank ·)).filter (· ≠ [])

/-- A line of text is a command with its arguments. -/
def command (ctx : MonContext) (text : List Byte) : Kern (Reply × Bool) :=
  match arguments text with
  | [] => pure (.nothing, false)
  | name :: args =>
    if 15 ≤ args.length then
      pure (.tooMany, false)
    else
      match commands.find? fun c => c.name = name with
      | none => pure (.unknown name, false)
      | some c => c.func.call ctx (name :: args)

/-- One command after the other, up to one that ends the session. -/
inductive Session (ctx : MonContext) : Kernel → List (List Byte) → List Reply → Kernel → Prop
  | leave {s t : Kernel} {text : List Byte} {reply : Reply} (h : command ctx text s = .ok (reply, true) t) :
      Session ctx s [text] [reply] t
  | stay {s t u : Kernel} {text : List Byte} {reply : Reply} {texts : List (List Byte)}
      {replies : List Reply} (h : command ctx text s = .ok (reply, false) t)
      (rest : Session ctx t texts replies u) : Session ctx s (text :: texts) (reply :: replies) u

/-- A line as it is typed, with the key that ends it. -/
structure TypedLine where
  keys : List Byte
  ends : Byte
  typed : ∀ c ∈ keys, Typed c
  not_typed : ¬ Typed ends

namespace TypedLine

def chars (l : TypedLine) : List Byte := l.keys ++ [l.ends]

/-- The text the line is edited to. -/
def text (l : TypedLine) : List Byte := (typeAll codeEdit (l.keys.filter (· ≠ 0))).1

end TypedLine

section text

variable {mem : Word → Byte} {buf p : Word} {s t line cs : List Byte} {c : Byte} {i : Nat}
  {ctx : MonContext}

theorem head_splitOnP (t : List Byte) :
    ∃ rest, t.splitOnP (IsBlank ·) = t.takeWhile (¬ IsBlank ·) :: rest := by
  induction t with
  | nil => exact ⟨[], rfl⟩
  | cons c t ih =>
    obtain ⟨rest, hrest⟩ := ih
    rw [List.splitOnP_cons_eq_if_modifyHead]
    by_cases hc : IsBlank c
    · exact ⟨t.splitOnP (IsBlank ·), by simp [hc]⟩
    · exact ⟨rest, by simp [hc, hrest]⟩

/-- The words are the runs of the text, whether the first character starts one or goes on with it. -/
theorem words_eq (hdrop : s.drop i = t) :
    (startsFrom false i t).map (runAt s) = (t.splitOnP (IsBlank ·)).tail.filter (· ≠ []) ∧
    (startsFrom true i t).map (runAt s) = (t.splitOnP (IsBlank ·)).filter (· ≠ []) := by
  induction t generalizing i with
  | nil => exact ⟨rfl, by simp [startsFrom]⟩
  | cons c t ih =>
    obtain ⟨hgo, hstart⟩ := ih (drop_succ_of_drop hdrop)
    rw [List.splitOnP_cons_eq_if_modifyHead, startsFrom, startsFrom]
    by_cases hc : IsBlank c
    · simp [hc, hstart]
    · obtain ⟨rest, hrest⟩ := head_splitOnP t
      have hrun : runAt s i = c :: t.takeWhile (¬ IsBlank ·) := by
        rw [runAt, hdrop]
        simp [hc]
      rw [hrest] at hgo ⊢
      simp [hc, hgo, hrun]

theorem arguments_eq (s : List Byte) : arguments s = (runStarts s).map (runAt s) := by
  rw [runStarts_eq]
  exact (words_eq (List.drop_zero ..)).2.symm

/-- Reading up to the NUL gives the string. -/
theorem cstring_eq {n : Nat} (h : (CharPtr.mem p).Holds (fun a => some (mem a)) s) (hn : s.length < n) :
    cstring mem n p = s := by
  induction s generalizing p n with
  | nil =>
    obtain ⟨n, rfl⟩ := Nat.exists_eq_add_of_lt hn
    have h0 : mem p = 0 := Option.some.inj h.head
    rw [List.length_nil, Nat.zero_add, cstring, if_pos h0]
  | cons c s ih =>
    obtain ⟨hc, hne, hrest⟩ := CharPtr.holds_cons.mp h
    have hc' : mem p = c := Option.some.inj hc
    rw [List.length_cons] at hn
    obtain ⟨n, rfl⟩ : ∃ k, n = k + 1 := ⟨n - 1, by omega⟩
    rw [cstring, hc', if_neg hne, ih hrest (by omega)]

theorem argStrings_eq {argc : Nat} {argv : Nat → Word} {ws : List (List Byte)} (hlen : ws.length = argc)
    (h : ∀ i (hi : i < ws.length), (CharPtr.mem (argv i)).Holds (fun a => some (mem a)) ws[i]) :
    argStrings mem argc argv = ws := by
  apply List.ext_getElem
  · rw [argStrings, List.length_map, List.length_range, hlen]
  · intro i _ hi
    have hi' := h i hi
    simp only [argStrings, List.getElem_map, List.getElem_range]
    exact cstring_eq hi' (CharPtr.length_lt hi')

/-- What runcmd makes of its buffer is what the words of the text ask for. -/
def Reacts (s : List Byte) (reaction : Reaction) (mem : Word → Byte) : Prop :=
  match arguments s with
  | [] => reaction = .nothing
  | name :: args =>
    if 15 ≤ args.length then
      reaction = .tooMany
    else
      match commands.find? fun c => c.name = name with
      | none => ∃ p, reaction = .unknown p ∧ cstring mem (2 ^ 32) p = name
      | some c => ∃ argc argv, reaction = .invoke c.func argc argv ∧ argStrings mem argc argv = name :: args

theorem runcmd_reacts (argv : Nat → Word) {fuel : Nat} (h : (CharPtr.mem buf).Holds (fun a => some (mem a)) s)
    (hfuel : s.length + 1 < fuel) :
    ∃ reaction mem', runcmd fuel mem buf argv = some (reaction, mem') ∧ Reacts s reaction mem' := by
  have hparse := parseArgs_eq (Function.update argv 0 0) h (Nat.zero_le _) rfl (Nat.zero_le 15) hfuel
  rw [cleared_zero, BitVec.add_zero, List.drop_zero, Nat.zero_add, ← runStarts_eq] at hparse
  obtain ⟨hfit, hmany⟩ := hparse
  have hwords := arguments_eq s
  have hlen : (arguments s).length = (runStarts s).length := by rw [hwords, List.length_map]
  rcases Nat.lt_or_ge 15 (runStarts s).length with hlt | hle
  · obtain ⟨mem', hrun⟩ := hmany hlt
    refine ⟨.tooMany, mem', by rw [runcmd, hrun], ?_⟩
    cases hargs : arguments s with
    | nil =>
      rw [hargs, List.length_nil] at hlen
      omega
    | cons name args =>
      rw [hargs, List.length_cons] at hlen
      rw [Reacts, hargs]
      dsimp only
      rw [if_pos (by omega)]
  · have hget : ∀ i (hi : i < (runStarts s).length), (CharPtr.mem (fillArgv buf 0 (Function.update argv 0 0)
        (runStarts s) i)).Holds (fun a => some (cleared mem buf s s.length a))
        (runAt s (runStarts s)[i]) := by
      intro i hi
      have harg : fillArgv buf 0 (Function.update argv 0 0) (runStarts s) (0 + i) =
          buf + BitVec.ofNat 32 (runStarts s)[i] := fillArgv_get hi
      rw [Nat.zero_add] at harg
      rw [harg]
      exact holds_runAt h (mem_runStarts (List.getElem_mem hi))
    generalize fillArgv buf 0 (Function.update argv 0 0) (runStarts s) = argv' at hfit hget
    rw [runcmd, hfit hle]
    cases hargs : arguments s with
    | nil =>
      rw [hargs, List.length_nil] at hlen
      simp only [← hlen, if_true]
      exact ⟨_, _, rfl, by simp only [Reacts, hargs]⟩
    | cons name args =>
      rw [hargs, List.length_cons] at hlen
      have hfirst : (CharPtr.mem (argv' 0)).Holds (fun a => some (cleared mem buf s s.length a)) name := by
        have h0 := hget 0 (by omega)
        have hname : (arguments s)[0]? = some name := by rw [hargs, List.getElem?_cons_zero]
        rw [hwords, List.getElem?_map, List.getElem?_eq_getElem (by omega), Option.map_some] at hname
        rwa [Option.some.inj hname] at h0
      dsimp only
      rw [if_neg (by omega), lookupCommand_eq hfirst commands_ne_zero]
      refine ⟨_, _, rfl, ?_⟩
      simp only [Reacts, hargs]
      rw [if_neg (by omega)]
      cases hfind : commands.find? fun c => c.name = name with
      | none => exact ⟨_, rfl, cstring_eq hfirst (CharPtr.length_lt hfirst)⟩
      | some c =>
        refine ⟨_, _, rfl, ?_⟩
        rw [← hargs]
        refine argStrings_eq (hargs ▸ hlen) fun i hi => ?_
        have hi' : i < (runStarts s).length := by rwa [hwords, List.length_map] at hi
        have harg : (arguments s)[i] = runAt s (runStarts s)[i] := by simp only [hwords, List.getElem_map]
        rw [harg]
        exact hget i hi'

end text

section session

variable {ctx : MonContext} {s t : MonState} {k : Kernel} {text rest : List Byte} {reply : Reply}
  {leave : Bool}
  {replies : List Reply} {lines : List TypedLine} {line cs : List Byte} {c : Byte}

/-- The buffer holds the text as a string. -/
def HoldsText (ctx : MonContext) (s : MonState) (text : List Byte) : Prop :=
  (CharPtr.mem ctx.buf).Holds (fun a => some (s.memory ctx.buf a)) text

/-- runcmd does what the text in the buffer says, and then the buffer may be another. -/
theorem runLine_eq (h : HoldsText ctx s text) (hlen : text.length < buflen) : ∃ buf,
    runLine ctx s = onKernel (command ctx text) { s with line := { s.line with buf := buf } } := by
  have hb : buflen = 1024 := rfl
  have hfuel : text.length + 1 < 2 ^ 32 := by omega
  obtain ⟨reaction, mem, hrun, hreact⟩ := runcmd_reacts ctx.argv h hfuel
  refine ⟨fun i => mem (ctx.buf + BitVec.ofNat 32 i), ?_⟩
  rw [runLine, bind_ok (read_apply s), hrun]
  change (update _ >>= _) s = _
  rw [bind_ok (update_apply _ _)]
  rw [command]
  unfold Reacts at hreact
  split at hreact
  · subst hreact
    rfl
  · split at hreact
    · next hmany =>
      subst hreact
      simp only [if_pos hmany]
      rfl
    · next hfew =>
      simp only [if_neg hfew]
      split at hreact
      · obtain ⟨p, rfl, hp⟩ := hreact
        simp only [hp]
        rfl
      · obtain ⟨argc, argv, rfl, hargv⟩ := hreact
        simp only [hargv]

theorem codeEdit_ne_zero (h : ∀ x ∈ line, x ≠ 0) : ∀ x ∈ (codeEdit line c).1, x ≠ 0 := by
  unfold codeEdit
  split
  · exact fun x hx => h x (List.mem_of_mem_dropLast hx)
  · split
    · next hc =>
      intro x hx
      rcases List.mem_append.mp hx with hx | hx
      · exact h x hx
      · rintro rfl
        have h0 := hc.1
        rw [← List.mem_singleton.mp hx] at h0
        exact absurd h0 (by decide)
    · exact h

/-- A line that is edited fits the buffer and has no NUL. -/
theorem typeAll_fits (cs : List Byte) :
    (typeAll codeEdit cs).1.length < buflen ∧ ∀ x ∈ (typeAll codeEdit cs).1, x ≠ 0 := by
  induction cs using List.reverseRecOn with
  | nil => exact ⟨by decide, fun x hx => absurd hx List.not_mem_nil⟩
  | append_singleton cs c ih =>
    rw [typeAll_concat]
    exact ⟨length_codeEdit_lt ih.1, codeEdit_ne_zero ih.2⟩

theorem holdsText_of_buf (hlen : text.length < buflen) (hne : ∀ x ∈ text, x ≠ 0)
    (h : ∀ i ≤ text.length, s.line.buf i = (text ++ [0]).getD i 0) : HoldsText ctx s text := by
  have hb : buflen = 1024 := rfl
  have hmem : ∀ i ≤ text.length, s.memory ctx.buf (ctx.buf + BitVec.ofNat 32 i) = (text ++ [0]).getD i 0 := by
    intro i hi
    rw [MonState.memory, toNat_offset (by omega), if_pos (by omega), h i hi]
  rw [HoldsText, CharPtr.holds_mem_iff]
  refine ⟨fun i hi => ⟨?_, hne _ (List.getElem_mem hi)⟩, ?_⟩
  · rw [hmem i (Nat.le_of_lt hi), List.getD_eq_getElem?_getD, List.getElem?_append_left hi,
      List.getElem?_eq_getElem hi, Option.getD_some]
  · rw [hmem _ (Nat.le_refl _), List.getD_eq_getElem?_getD, List.getElem?_concat_length, Option.getD_some]

variable (ctx) in
/-- readline takes a line that is typed into the buffer. -/
theorem readline_typed (l : TypedLine) (h : s.line.input = l.chars ++ rest) :
    ∃ u, onLine (readline (some monPrompt)) s = .ok true u ∧ u.kernel = s.kernel ∧ u.line.input = rest ∧
      HoldsText ctx u l.text := by
  have hin : s.line.input = l.keys ++ l.ends :: rest := by
    rw [h, TypedLine.chars, List.append_assoc, List.singleton_append]
  obtain ⟨hlen, hne⟩ := typeAll_fits (l.keys.filter (· ≠ 0))
  have hline : ReadsLine (some monPrompt) s.line l.text (typeAll codeEdit (l.keys.filter (· ≠ 0))).2 rest :=
    readline_line l.not_typed l.typed hin
  obtain ⟨u, hrun, hrest, hbuf, -⟩ := hline.returns
  exact ⟨{ s with line := u }, zoom_ok hrun, rfl, hrest, holdsText_of_buf hlen hne hbuf⟩

theorem exists_typedLine (input : List Byte) :
    (∀ c ∈ input, Typed c) ∨ ∃ (l : TypedLine) (rest : List Byte), input = l.chars ++ rest := by
  induction input with
  | nil => exact .inl fun c hc => absurd hc List.not_mem_nil
  | cons c input ih =>
    by_cases hc : Typed c
    · rcases ih with hall | ⟨l, rest, rfl⟩
      · exact .inl (List.forall_mem_cons.mpr ⟨hc, hall⟩)
      · exact .inr ⟨⟨c :: l.keys, l.ends, List.forall_mem_cons.mpr ⟨hc, l.typed⟩, l.not_typed⟩, rest, rfl⟩
    · exact .inr ⟨⟨[], c, by simp, hc⟩, input, rfl⟩

theorem nextChar_rest {input rest : List Byte} (h : nextChar input = some (c, rest)) :
    c ∈ input ∧ c ≠ 0 ∧ ∀ x ∈ rest, x ∈ input := by
  induction input with
  | nil => cases h
  | cons d input ih =>
    rw [nextChar] at h
    split at h
    · obtain ⟨hc, hne, hsub⟩ := ih h
      exact ⟨List.mem_cons_of_mem d hc, hne, fun x hx => List.mem_cons_of_mem d (hsub x hx)⟩
    · next hd =>
      cases h
      exact ⟨List.mem_cons_self, hd, fun x hx => List.mem_cons_of_mem _ hx⟩

/-- readline waits for a key that ends the line. -/
theorem readlineLoop_waits {rounds : Nat} {u v : LineIn} {b : Bool} (hall : ∀ c ∈ u.input, Typed c)
    (hlen : line.length < buflen) (hbuf : HoldsLine u.buf line) :
    readlineLoop 1 rounds line.length u ≠ .ok b v := by
  induction rounds generalizing u line with
  | zero => exact stop_ne_ok
  | succ rounds ih =>
    cases hnext : nextChar u.input with
    | none =>
      intro hrun
      obtain ⟨r, u', hround, -⟩ := bind_eq_ok.mp hrun
      obtain ⟨w, u', hget, -⟩ := bind_eq_ok.mp hround
      rw [getchar, bind_ok (read_apply u), hnext] at hget
      exact stop_ne_ok hget
    | some p =>
      obtain ⟨c, rest⟩ := p
      obtain ⟨hc, -, hsub⟩ := nextChar_rest hnext
      obtain ⟨u', hround, hinput, -, hhold⟩ :=
        readlineChar_again (s := { u with input := rest }) (hall c hc) hlen hbuf
      rw [readlineLoop, bind_ok ((readlineRound_eq hnext).trans hround)]
      refine ih (fun x hx => hall x (hsub x ?_)) (length_codeEdit_lt hlen) hhold
      rwa [hinput] at hx

theorem readline_waits {u v : LineIn} {b : Bool} {prompt : Option (List Byte)}
    (hall : ∀ c ∈ u.input, Typed c) :
    readline prompt u ≠ .ok b v := by
  rw [readline, bind_ok showPrompt_ok, bind_ok (read_apply _)]
  change readlineLoop 1 _ ([] : List Byte).length _ ≠ _
  exact readlineLoop_waits hall (by decide) fun j hj => absurd hj (Nat.not_lt_zero j)

theorem onKernel_ok {α : Type} {x : Kern α} {a : α} (h : x s.kernel = .ok a k) :
    onKernel x s = .ok a { s with kernel := k } :=
  zoom_ok h

variable (ctx) in
/-- A round of the loop: a line is typed, and its command is run. -/
theorem monitorLoop_typed (rounds : Nat) (l : TypedLine) (h : s.line.input = l.chars ++ rest) :
    ∃ u : MonState, u.kernel = s.kernel ∧ u.line.input = rest ∧
      monitorLoop ctx (rounds + 1) s = (onKernel (command ctx l.text) >>= fun r =>
        if r.2 then pure [r.1] else do
          let replies ← monitorLoop ctx rounds
          pure (r.1 :: replies)) u := by
  obtain ⟨u, hread, hkernel, hrest, hholds⟩ := readline_typed ctx l h
  obtain ⟨buf, hline⟩ := runLine_eq hholds (typeAll_fits _).1
  refine ⟨{ u with line := { u.line with buf := buf } }, hkernel, hrest, ?_⟩
  rw [monitorLoop, bind_ok hread, if_pos rfl, bind_apply, hline, bind_apply]

/-- What the loop does, it does line by line. -/
theorem monitorLoop_session {rounds : Nat} (h : monitorLoop ctx rounds s = .ok replies t) :
    ∃ lines : List TypedLine, s.line.input = lines.flatMap TypedLine.chars ++ t.line.input ∧
      Session ctx s.kernel (lines.map TypedLine.text) replies t.kernel := by
  induction rounds generalizing s replies with
  | zero => exact absurd h stop_ne_ok
  | succ rounds ih =>
    rcases exists_typedLine s.line.input with hall | ⟨l, rest, hin⟩
    · obtain ⟨b, u, hread, -⟩ := bind_eq_ok.mp h
      obtain ⟨v, hrun, -⟩ := zoom_eq_ok.mp hread
      exact absurd hrun (readline_waits hall)
    · obtain ⟨u, hkernel, hrest, hround⟩ := monitorLoop_typed ctx rounds l hin
      rw [hround] at h
      obtain ⟨⟨reply, leave⟩, v, hcommand, hnext⟩ := bind_eq_ok.mp h
      obtain ⟨k, hk, rfl⟩ := zoom_eq_ok.mp hcommand
      rw [hkernel] at hk
      cases leave with
      | true =>
        obtain ⟨rfl, rfl⟩ := pure_eq_ok.mp hnext
        exact ⟨[l], by simp [hin, hrest], .leave hk⟩
      | false =>
        obtain ⟨replies', w, hloop, hlast⟩ := bind_eq_ok.mp hnext
        obtain ⟨rfl, rfl⟩ := pure_eq_ok.mp hlast
        obtain ⟨lines, hlines, hsession⟩ := ih hloop
        refine ⟨l :: lines, ?_, .stay hk hsession⟩
        rw [hin, List.flatMap_cons, List.append_assoc, ← hlines, ← hrest]

/-- A session that is typed is what the loop does. -/
theorem Session.monitorLoop (h : Session ctx s.kernel (lines.map TypedLine.text) replies k) {rounds : Nat}
    (hin : s.line.input = lines.flatMap TypedLine.chars ++ rest) (hrounds : lines.length ≤ rounds) :
    ∃ t, Jos.monitorLoop ctx rounds s = .ok replies t ∧ t.kernel = k ∧ t.line.input = rest := by
  induction lines generalizing s replies rounds with
  | nil => cases h
  | cons l lines ih =>
    rw [List.length_cons] at hrounds
    obtain ⟨rounds, rfl⟩ : ∃ n, rounds = n + 1 := ⟨rounds - 1, by omega⟩
    rw [List.flatMap_cons, List.append_assoc] at hin
    obtain ⟨u, hkernel, hrest, hround⟩ := monitorLoop_typed ctx rounds l hin
    rw [hround]
    generalize htexts : (l :: lines).map TypedLine.text = texts at h
    rw [List.map_cons] at htexts
    cases h with
    | leave hrun =>
      obtain ⟨htext, hnil⟩ := List.cons.inj htexts
      obtain rfl := List.map_eq_nil_iff.mp hnil
      rw [← hkernel, ← htext] at hrun
      refine ⟨{ u with kernel := k }, ?_, rfl, hrest⟩
      rw [bind_ok (onKernel_ok hrun)]
      rfl
    | stay hrun hsession =>
      obtain ⟨htext, rfl⟩ := List.cons.inj htexts
      rw [← hkernel, ← htext] at hrun
      obtain ⟨t, hloop, hk, ht⟩ :=
        ih (s := { u with kernel := _ }) hsession hrest (Nat.le_of_succ_le_succ hrounds)
      refine ⟨t, ?_, hk, ht⟩
      rw [bind_ok (onKernel_ok hrun), if_neg Bool.false_ne_true, bind_ok hloop]
      rfl

theorem length_le_chars (lines : List TypedLine) : lines.length ≤ (lines.flatMap TypedLine.chars).length := by
  induction lines with
  | nil => exact Nat.le_refl 0
  | cons l lines ih =>
    rw [List.flatMap_cons, List.length_append, List.length_cons, TypedLine.chars, List.length_append,
      List.length_singleton]
    omega

theorem Session.monitorTyped (h : Session ctx s.kernel (lines.map TypedLine.text) replies k)
    (hin : s.line.input = lines.flatMap TypedLine.chars ++ rest) :
    ∃ t, Jos.monitorTyped ctx s = .ok replies t ∧ t.kernel = k ∧ t.line.input = rest := by
  have hlen := length_le_chars lines
  rw [Jos.monitorTyped, bind_ok (read_apply s)]
  refine h.monitorLoop hin ?_
  rw [hin, List.length_append]
  omega

/-- Whatever is typed, the monitor returns with it exactly when its lines, edited and split into words,
are a session of commands that ends with exit, and it does to the kernel what the session does. It takes
no character behind the last line. -/
theorem monitorTyped_eq_ok :
    (∃ t, monitorTyped ctx s = .ok replies t ∧ t.kernel = k ∧ t.line.input = rest) ↔
      ∃ lines : List TypedLine, s.line.input = lines.flatMap TypedLine.chars ++ rest ∧
        Session ctx s.kernel (lines.map TypedLine.text) replies k := by
  constructor
  · rintro ⟨t, hrun, rfl, rfl⟩
    rw [monitorTyped, bind_ok (read_apply s)] at hrun
    exact monitorLoop_session hrun
  · rintro ⟨lines, hin, hsession⟩
    exact hsession.monitorTyped hin

end session

end Jos
