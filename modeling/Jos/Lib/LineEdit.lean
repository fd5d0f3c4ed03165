import Jos.Lib.Readline
import Mathlib.Data.List.Basic
import Mathlib.Data.List.Infix

/-! What readline makes of the characters typed, against the editing it is meant to do. -/
namespace Jos

open Prog

/-- Backspace and DEL take back the last character. -/
def Erases (c : Byte) : Prop := c = 8 ∨ c = 0x7F

instance : DecidablePred Erases := fun c => inferInstanceAs (Decidable (c = 8 ∨ c = 0x7F))

/-- What one more character does to a line, and what is echoed. -/
def edit (line : List Byte) (c : Byte) : List Byte × List Byte :=
  if Erases c then
    (line.dropLast, if line = [] then [] else [8])
  else if 32 ≤ c ∧ line.length < buflen - 1 then
    (line ++ [c], [c])
  else
    (line, [])

/-- The same as readline does it: with nothing to erase, the character falls through. -/
def codeEdit (line : List Byte) (c : Byte) : List Byte × List Byte :=
  if Erases c ∧ line ≠ [] then
    (line.dropLast, [8])
  else if 32 ≤ c ∧ line.length < buflen - 1 then
    (line ++ [c], [c])
  else
    (line, [])

/-- The line and the whole echo, after one more character. -/
def typeChar (step : List Byte → Byte → List Byte × List Byte) (p : List Byte × List Byte) (c : Byte) :
    List Byte × List Byte :=
  ((step p.1 c).1, p.2 ++ (step p.1 c).2)

/-- The line and the whole echo, from the empty line. -/
def typeAll (step : List Byte → Byte → List Byte × List Byte) (cs : List Byte) : List Byte × List Byte :=
  cs.foldl (typeChar step) ([], [])

section editing

variable {step : List Byte → Byte → List Byte × List Byte} {line cs : List Byte} {c : Byte}

theorem typeAll_concat : typeAll step (cs ++ [c]) =
    ((step (typeAll step cs).1 c).1, (typeAll step cs).2 ++ (step (typeAll step cs).1 c).2) :=
  List.foldl_append

/-- readline edits as it should, unless a DEL finds nothing to erase. -/
theorem codeEdit_eq (h : c = 0x7F → line ≠ []) : codeEdit line c = edit line c := by
  unfold codeEdit edit
  by_cases hc : Erases c
  · by_cases hline : line = []
    · have h8 : c = 8 := hc.resolve_right fun hdel => h hdel hline
      rw [if_neg (fun hn => hn.2 hline), if_pos hc, if_pos hline, h8, hline]
      rfl
    · rw [if_pos ⟨hc, hline⟩, if_pos hc, if_neg hline]
  · rw [if_neg (fun hn => hc hn.1), if_neg hc]

/-- A DEL that finds nothing to erase is taken for a character. -/
theorem codeEdit_del : codeEdit [] 0x7F = ([0x7F], [0x7F]) := by
  decide

theorem del_not_mem_edit : 0x7F ∉ (edit line c).2 := by
  unfold edit
  split
  · split
    · exact List.not_mem_nil
    · exact fun hmem => absurd (List.mem_singleton.mp hmem) (by decide)
  · next hc =>
    split
    · exact fun hmem => hc (Or.inr (List.mem_singleton.mp hmem).symm)
    · exact List.not_mem_nil

theorem del_not_mem_echo : 0x7F ∉ (typeAll edit cs).2 := by
  induction cs using List.reverseRecOn with
  | nil => exact List.not_mem_nil
  | append_singleton cs c ih =>
    rw [typeAll_concat, List.mem_append]
    exact fun h => h.elim ih del_not_mem_edit

/-- Every DEL finds something to erase. -/
def DelsErase (cs : List Byte) : Prop := ∀ pre, pre ++ [0x7F] <+: cs → (typeAll edit pre).1 ≠ []

theorem delsErase_concat_iff :
    DelsErase (cs ++ [c]) ↔ DelsErase cs ∧ (c = 0x7F → (typeAll edit cs).1 ≠ []) := by
  constructor
  · intro h
    refine ⟨fun pre hpre => h pre (hpre.trans (List.prefix_append cs [c])), ?_⟩
    rintro rfl
    exact h cs (List.prefix_refl _)
  · rintro ⟨h, hc⟩ pre hpre
    rcases List.prefix_concat_iff.mp hpre with heq | hpre
    · obtain ⟨rfl, hdel⟩ := List.append_inj' heq rfl
      exact hc (List.singleton_inj.mp hdel).symm
    · exact h pre hpre

theorem delsErase_of_not_mem (h : 0x7F ∉ cs) : DelsErase cs :=
  fun _ hpre => absurd (hpre.subset (List.mem_append_right _ (List.mem_singleton_self _))) h

theorem typeAll_codeEdit (h : DelsErase cs) : typeAll codeEdit cs = typeAll edit cs := by
  induction cs using List.reverseRecOn with
  | nil => rfl
  | append_singleton cs c ih =>
    obtain ⟨hcs, hc⟩ := delsErase_concat_iff.mp h
    rw [typeAll_concat, typeAll_concat, ih hcs, codeEdit_eq hc]

/-- A DEL with nothing to erase shows up in the echo. -/
theorem del_mem_echo_or (cs : List Byte) : 0x7F ∈ (typeAll codeEdit cs).2 ∨ DelsErase cs := by
  induction cs using List.reverseRecOn with
  | nil =>
    right
    intro pre hpre
    exact absurd (List.prefix_nil.mp hpre) (List.concat_ne_nil _ _)
  | append_singleton cs c ih =>
    rw [typeAll_concat, List.mem_append]
    rcases ih with hmem | hcs
    · exact Or.inl (Or.inl hmem)
    · by_cases hstray : c = 0x7F ∧ (typeAll edit cs).1 = []
      · left
        rw [typeAll_codeEdit hcs, hstray.1, hstray.2, codeEdit_del]
        exact Or.inr (List.mem_singleton_self _)
      · exact Or.inr (delsErase_concat_iff.mpr ⟨hcs, fun hc hline => hstray ⟨hc, hline⟩⟩)

/-- The echo is as it should be exactly when every DEL finds something to erase. -/
theorem echo_eq_iff : (typeAll codeEdit cs).2 = (typeAll edit cs).2 ↔ DelsErase cs := by
  constructor
  · intro h
    refine (del_mem_echo_or cs).resolve_left fun hmem => ?_
    rw [h] at hmem
    exact del_not_mem_echo hmem
  · intro h
    rw [typeAll_codeEdit h]

theorem length_codeEdit_lt (h : line.length < buflen) : (codeEdit line c).1.length < buflen := by
  have hlen : buflen = 1024 := rfl
  unfold codeEdit
  split
  · rw [List.length_dropLast]
    omega
  · split
    · rw [List.length_append, List.length_singleton]
      omega
    · exact h

end editing

/-! One round of the loop. -/

/-- The buffer holds the line so far. -/
def HoldsLine (buf : Nat → Byte) (line : List Byte) : Prop := ∀ i < line.length, buf i = line.getD i 0

/-- What the echo puts out on the console. -/
def echoed (echo : List Byte) : List ConsoleOut := echo.map fun c => .cputchar (c.setWidth 32)

section round

variable {s u : LineIn} {line : List Byte} {c : Byte} {i i' : Int} {w : Word}

theorem HoldsLine.dropLast (h : HoldsLine s.buf line) : HoldsLine s.buf line.dropLast := by
  intro j hj
  have hlt : j < line.length := by
    rw [List.length_dropLast] at hj
    omega
  rw [h j hlt, List.getD_eq_getElem?_getD, List.getD_eq_getElem?_getD, List.getElem?_dropLast,
    if_pos (by rwa [List.length_dropLast] at hj)]

theorem HoldsLine.concat (h : HoldsLine s.buf line) :
    HoldsLine (Function.update s.buf line.length c) (line ++ [c]) := by
  intro j hj
  rw [List.length_append, List.length_singleton] at hj
  rw [List.getD_eq_getElem?_getD]
  by_cases hlt : j < line.length
  · rw [Function.update_of_ne (by omega), h j hlt, List.getElem?_append_left hlt,
      List.getD_eq_getElem?_getD]
  · have heq : j = line.length := by omega
    rw [heq, Function.update_self, List.getElem?_concat_length, Option.getD_some]

theorem toInt_char (c : Byte) : (c.setWidth 32).toInt = c.toNat := by
  have hc := c.isLt
  rw [BitVec.toInt_eq_toNat_of_lt, BitVec.toNat_setWidth]
  · omega
  · rw [BitVec.toNat_setWidth]
    omega

theorem storeLine_ok (h : 0 ≤ i) (h' : i < buflen) :
    storeLine i c s = .ok () { s with buf := Function.update s.buf i.toNat c } := by
  rw [storeLine, bind_ok (check_true ⟨h, h'⟩ s)]
  rfl

theorem echoChar_ok : echoChar 1 w s = .ok () { s with console := s.console ++ [.cputchar w] } := by
  rw [echoChar, if_pos (by decide)]
  rfl

/-- The character is not the last one. -/
def Typed (c : Byte) : Prop := c ≠ 10 ∧ c ≠ 13

instance : DecidablePred Typed := fun c => inferInstanceAs (Decidable (c ≠ 10 ∧ c ≠ 13))

/-- A character that does not end the line is edited into it. -/
theorem readlineChar_again (hc : Typed c) (hlen : line.length < buflen) (hbuf : HoldsLine s.buf line) :
    ∃ u, readlineChar 1 line.length (c.setWidth 32) s = .ok (.again (codeEdit line c).1.length) u ∧
      u.input = s.input ∧ u.console = s.console ++ echoed (codeEdit line c).2 ∧
      HoldsLine u.buf (codeEdit line c).1 := by
  have hneg : ¬ (c.setWidth 32).toInt < 0 := by
    rw [toInt_char]
    omega
  have herase : (c.setWidth 32 = 8 ∨ c.setWidth 32 = 0x7F) ∧ (0 : Int) < line.length ↔
      Erases c ∧ line ≠ [] := by
    have h8 : c.setWidth 32 = (8 : Word) ↔ c = 8 := setWidth_char_inj (d := 8)
    have hdel : c.setWidth 32 = (0x7F : Word) ↔ c = 0x7F := setWidth_char_inj (d := 0x7F)
    rw [h8, hdel, Int.natCast_pos, List.length_pos_iff]
    rfl
  have happend : 32 ≤ (c.setWidth 32).toInt ∧ (line.length : Int) < buflen - 1 ↔
      32 ≤ c ∧ line.length < buflen - 1 := by
    have hb : buflen = 1024 := rfl
    have h32 : (32 : Byte) ≤ c ↔ 32 ≤ c.toNat := BitVec.le_def
    rw [toInt_char, h32]
    omega
  rw [readlineChar, if_neg hneg]
  unfold codeEdit
  by_cases he : Erases c ∧ line ≠ []
  · have hpos := List.length_pos_iff.mpr he.2
    rw [if_pos (herase.mpr he), if_pos he]
    refine ⟨{ s with console := s.console ++ [.cputchar 8] }, ?_, rfl, rfl, hbuf.dropLast⟩
    have hint : (line.length : Int) - 1 = (line.dropLast.length : Int) := by
      rw [List.length_dropLast]
      omega
    rw [hint, bind_ok echoChar_ok]
    rfl
  · rw [if_neg (fun h => he (herase.mp h)), if_neg he]
    by_cases ha : 32 ≤ c ∧ line.length < buflen - 1
    · rw [if_pos (happend.mpr ha), if_pos ha]
      refine ⟨{ s with
        console := s.console ++ [.cputchar (c.setWidth 32)]
        buf := Function.update s.buf line.length c }, ?_, rfl, rfl, hbuf.concat⟩
      have hstore := storeLine_ok (i := line.length) (c := (c.setWidth 32).setWidth 8)
        (s := { s with console := s.console ++ [.cputchar (c.setWidth 32)] }) (by omega) (by omega)
      have hint : (line.length : Int) + 1 = ((line ++ [c]).length : Int) := by
        rw [List.length_append, List.length_singleton]
        omega
      rw [setWidth_char, Int.toNat_natCast] at hstore
      rw [hint, bind_ok echoChar_ok, setWidth_char, bind_ok hstore]
      rfl
    · have hend : ¬ (c.setWidth 32 = 10 ∨ c.setWidth 32 = 13) := by
        have h10 : c.setWidth 32 = (10 : Word) ↔ c = 10 := setWidth_char_inj (d := 10)
        have h13 : c.setWidth 32 = (13 : Word) ↔ c = 13 := setWidth_char_inj (d := 13)
        rw [h10, h13]
        exact fun h => h.elim hc.1 hc.2
      rw [if_neg (fun h => ha (happend.mp h)), if_neg ha, if_neg hend]
      exact ⟨s, rfl, rfl, (List.append_nil _).symm, hbuf⟩

/-- Newline and carriage return end the line. -/
theorem readlineChar_end (hc : ¬ Typed c) (hlen : line.length < buflen) :
    readlineChar 1 line.length (c.setWidth 32) s = .ok .line { s with
      console := s.console ++ [.cputchar 10]
      buf := Function.update s.buf line.length 0 } := by
  have hends : c = 10 ∨ c = 13 := by
    by_cases h : c = 10
    · exact Or.inl h
    · exact Or.inr (not_not.mp fun h' => hc ⟨h, h'⟩)
  have hstore := storeLine_ok (i := line.length) (c := 0)
    (s := { s with console := s.console ++ [.cputchar 10] }) (by omega) (by omega)
  rw [Int.toNat_natCast] at hstore
  rcases hends with rfl | rfl
  · rw [readlineChar, if_neg (by decide), if_neg (by simp), if_neg (by simp), if_pos (by simp),
      bind_ok echoChar_ok, bind_ok hstore]
    rfl
  · rw [readlineChar, if_neg (by decide), if_neg (by simp), if_neg (by simp), if_pos (by simp),
      bind_ok echoChar_ok, bind_ok hstore]
    rfl

end round

/-! The whole line. -/

/-- The index and the state with which some round of the loop begins. -/
inductive LoopHead (prompt : Option (List Byte)) (s : LineIn) : Int → LineIn → Prop
  | start {u : LineIn} (h : showPrompt prompt s = .ok () u) : LoopHead prompt s 0 u
  | next {u v : LineIn} {i i' : Int} (h : LoopHead prompt s i u)
    (hround : readlineRound (iscons 0) i u = .ok (.again i') v) : LoopHead prompt s i' v

/-- What the prompt puts out. -/
def prompted : Option (List Byte) → List ConsoleOut
  | none => []
  | some text => [.prompt text]

/-- readline returns the line, followed by a NUL, has put out the echo and the newline behind the
prompt, leaves the rest of the input, and its index has stayed in the buffer. -/
structure ReadsLine (prompt : Option (List Byte)) (s : LineIn) (line echo rest : List Byte) : Prop where
  returns : ∃ u, readline prompt s = .ok true u ∧ u.input = rest ∧
    (∀ i ≤ line.length, u.buf i = (line ++ [0]).getD i 0) ∧
    u.console = s.console ++ prompted prompt ++ echoed (echo ++ [10])
  index : ∀ i u, LoopHead prompt s i u → 0 ≤ i ∧ i ≤ buflen - 1

section run

variable {s u v : LineIn} {l rest : List Byte} {keys line : List Byte} {c t : Byte} {i i' : Int}
  {rounds : Nat} {prompt : Option (List Byte)} {p : List Byte × List Byte} {con : List ConsoleOut}

theorem getchar_ok (h : nextChar s.input = some (c, rest)) :
    getchar s = .ok (c.setWidth 32) { s with input := rest } := by
  rw [getchar, bind_ok (read_apply s), h]
  rfl

theorem readlineRound_eq (h : nextChar s.input = some (c, rest)) :
    readlineRound 1 i s = readlineChar 1 i (c.setWidth 32) { s with input := rest } := by
  rw [readlineRound, bind_ok (getchar_ok h)]

theorem nextChar_cons (hc : c ≠ 0) : nextChar (c :: l) = some (c, l) := by
  rw [nextChar, if_neg hc]

theorem nextChar_zero : nextChar (0 :: l) = nextChar l := by
  rw [nextChar, if_pos rfl]

/-- An answer 0 of cons_getc is waited out. -/
theorem readlineRound_zero (h : nextChar l = some (c, rest)) :
    readlineRound 1 i { s with input := 0 :: l } = readlineRound 1 i { s with input := l } := by
  rw [readlineRound_eq (s := { s with input := 0 :: l }) (nextChar_zero.trans h),
    readlineRound_eq (s := { s with input := l }) h]

/-- Some character comes before the end of the line, or its end does. -/
theorem exists_nextChar (ht : t ≠ 0) (keys rest : List Byte) :
    ∃ c l, nextChar (keys ++ t :: rest) = some (c, l) := by
  induction keys with
  | nil => exact ⟨t, rest, nextChar_cons ht⟩
  | cons k keys ih =>
    by_cases hk : k = 0
    · obtain ⟨c, l, h⟩ := ih
      exact ⟨c, l, by rw [hk, List.cons_append, nextChar_zero, h]⟩
    · exact ⟨k, _, nextChar_cons hk⟩

/-- The loop edits the characters up to the end of the line, and then ends the line. -/
theorem readlineLoop_line (ht : ¬ Typed t) (hkeys : ∀ c ∈ keys, Typed c)
    (hs : s.input = keys ++ t :: rest) (hrounds : keys.length < rounds) (hlen : p.1.length < buflen)
    (hbuf : HoldsLine s.buf p.1) (hcon : s.console = con ++ echoed p.2) :
    ∃ u, readlineLoop 1 rounds p.1.length s = .ok true u ∧ u.input = rest ∧
      HoldsLine u.buf ((keys.filter (· ≠ 0)).foldl (typeChar codeEdit) p).1 ∧
      u.buf ((keys.filter (· ≠ 0)).foldl (typeChar codeEdit) p).1.length = 0 ∧
      u.console = con ++ echoed (((keys.filter (· ≠ 0)).foldl (typeChar codeEdit) p).2 ++ [10]) := by
  have ht0 : t ≠ 0 := by
    rintro rfl
    exact ht ⟨by decide, by decide⟩
  induction keys generalizing s p rounds with
  | nil =>
    obtain ⟨rounds, rfl⟩ : ∃ k, rounds = k + 1 := ⟨rounds - 1, by omega⟩
    have hnext : nextChar s.input = some (t, rest) := by
      rw [hs]
      exact nextChar_cons ht0
    have hround := (readlineRound_eq (i := p.1.length) hnext).trans (readlineChar_end ht hlen)
    rw [readlineLoop, bind_ok hround]
    refine ⟨_, rfl, rfl, ?_, Function.update_self p.1.length 0 s.buf, ?_⟩
    · intro j hj
      exact (Function.update_of_ne (Nat.ne_of_lt hj) ..).trans (hbuf j hj)
    · rw [hcon, echoed, echoed, List.map_append, List.append_assoc]
      rfl
  | cons k keys ih =>
    have htail : ∀ c ∈ keys, Typed c := fun c hc => hkeys c (List.mem_cons_of_mem k hc)
    obtain ⟨rounds, rfl⟩ : ∃ k, rounds = k + 1 := ⟨rounds - 1, by rw [List.length_cons] at hrounds; omega⟩
    rw [List.length_cons] at hrounds
    by_cases hk : k = 0
    · subst hk
      obtain ⟨c, l, hnext⟩ := exists_nextChar ht0 keys rest
      have hs' : s = { s with input := 0 :: (keys ++ t :: rest) } := by
        rw [← List.cons_append, ← hs]
      have hskip : readlineLoop 1 (rounds + 1) p.1.length s =
          readlineLoop 1 (rounds + 1) p.1.length { s with input := keys ++ t :: rest } := by
        rw [hs', readlineLoop, bind_apply, bind_apply, readlineRound_zero hnext]
      rw [hskip, List.filter_cons_of_neg (by simp)]
      exact ih htail rfl (by omega) hlen hbuf hcon
    · obtain ⟨u, hround, hinput, hcons, hhold⟩ :=
        readlineChar_again (s := { s with input := keys ++ t :: rest }) (hkeys k List.mem_cons_self) hlen hbuf
      have hround' := (readlineRound_eq (i := p.1.length) (hs ▸ nextChar_cons hk)).trans hround
      rw [readlineLoop, bind_ok hround', List.filter_cons_of_pos (by simpa using hk), List.foldl_cons]
      refine ih (p := typeChar codeEdit p k) htail hinput (by omega) (length_codeEdit_lt hlen) hhold ?_
      rw [hcons, hcon, typeChar, echoed, echoed, echoed, List.map_append, List.append_assoc]

theorem showPrompt_ok : showPrompt prompt s = .ok () { s with console := s.console ++ prompted prompt } := by
  cases prompt with
  | none =>
    rw [prompted, List.append_nil]
    rfl
  | some text => rfl

/-- A round that goes on leaves the index inside the buffer. -/
theorem readlineRound_index (h : readlineRound (iscons 0) i s = .ok (.again i') v) (h0 : 0 ≤ i)
    (hi : i ≤ buflen - 1) : 0 ≤ i' ∧ i' ≤ buflen - 1 := by
  obtain ⟨w, u, -, hchar⟩ := bind_eq_ok.mp h
  unfold readlineChar at hchar
  split at hchar
  · obtain ⟨_, _, _, hend⟩ := bind_eq_ok.mp hchar
    cases hend
  · split at hchar
    · obtain ⟨_, _, _, hend⟩ := bind_eq_ok.mp hchar
      cases hend
      omega
    · split at hchar
      · obtain ⟨_, _, _, hrest⟩ := bind_eq_ok.mp hchar
        obtain ⟨_, _, _, hend⟩ := bind_eq_ok.mp hrest
        cases hend
        omega
      · split at hchar
        · obtain ⟨_, _, _, hrest⟩ := bind_eq_ok.mp hchar
          obtain ⟨_, _, _, hend⟩ := bind_eq_ok.mp hrest
          cases hend
        · cases hchar
          exact ⟨h0, hi⟩

theorem LoopHead.index (h : LoopHead prompt s i u) : 0 ≤ i ∧ i ≤ buflen - 1 := by
  induction h with
  | start _ => exact ⟨Int.le_refl 0, by decide⟩
  | next _ hround ih => exact readlineRound_index hround ih.1 ih.2

/-- What readline does with a line, whatever it is. -/
theorem readline_line (ht : ¬ Typed t) (hkeys : ∀ c ∈ keys, Typed c) (hs : s.input = keys ++ t :: rest) :
    ReadsLine prompt s (typeAll codeEdit (keys.filter (· ≠ 0))).1
      (typeAll codeEdit (keys.filter (· ≠ 0))).2 rest := by
  refine ⟨?_, fun i u h => h.index⟩
  have hinput' : (LineIn.mk s.input (s.console ++ prompted prompt) s.buf).input = keys ++ t :: rest := hs
  have hrounds : keys.length < s.input.length + 1 := by
    rw [hs, List.length_append]
    omega
  obtain ⟨u, hrun, hinput, hhold, hnul, hcon⟩ := readlineLoop_line (p := ([], [])) ht hkeys hinput' hrounds
    (by decide) (fun j hj => absurd hj (Nat.not_lt_zero j)) (List.append_nil _).symm
  refine ⟨u, ?_, hinput, fun i hi => ?_, hcon⟩
  · rw [readline, bind_ok showPrompt_ok, bind_ok (read_apply _)]
    exact hrun
  · rw [List.getD_eq_getElem?_getD]
    rcases Nat.lt_or_eq_of_le hi with hlt | heq
    · rw [hhold i hlt, List.getElem?_append_left hlt, List.getD_eq_getElem?_getD]
      rfl
    · rw [heq, List.getElem?_concat_length]
      exact hnul

/-- A run of readline has one echo. -/
theorem ReadsLine.echo_unique {line line' echo echo' rest' : List Byte}
    (h : ReadsLine prompt s line echo rest) (h' : ReadsLine prompt s line' echo' rest') : echo = echo' := by
  obtain ⟨u, hrun, -, -, hcon⟩ := h.returns
  obtain ⟨u', hrun', -, -, hcon'⟩ := h'.returns
  rw [hrun] at hrun'
  cases hrun'
  rw [hcon, List.append_right_inj, echoed, echoed] at hcon'
  have hinj : Function.Injective fun c : Byte => ConsoleOut.cputchar (c.setWidth 32) := by
    intro c d hcd
    exact setWidth_char_inj.mp (ConsoleOut.cputchar.inj hcd)
  exact List.append_cancel_right (List.map_injective_iff.mpr hinj hcon')

end run

/-- For every sequence of answers of cons_getc up to the first newline or carriage return: readline
reads the line that the characters edit exactly when every DEL finds something to erase. -/
theorem readline_edits_iff (prompt : Option (List Byte)) (s : LineIn) (keys rest : List Byte) (t : Byte)
    (ht : ¬ Typed t) (hkeys : ∀ c ∈ keys, Typed c) (hs : s.input = keys ++ t :: rest) :
    ReadsLine prompt s (typeAll edit (keys.filter (· ≠ 0))).1 (typeAll edit (keys.filter (· ≠ 0))).2 rest ↔
      DelsErase (keys.filter (· ≠ 0)) := by
  have hline : ReadsLine prompt s _ _ rest := readline_line ht hkeys hs
  constructor
  · intro h
    exact echo_eq_iff.mp (hline.echo_unique h)
  · intro h
    rw [typeAll_codeEdit h] at hline
    exact hline

/-- Two characters, the second taken back, and a newline. -/
theorem readline_edits_ab :
    ReadsLine none ⟨[0, 97, 98, 0x7F, 0, 10, 99], [], fun _ => 0⟩ [97] [97, 98, 8] [99] :=
  (readline_edits_iff none ⟨[0, 97, 98, 0x7F, 0, 10, 99], [], fun _ => 0⟩ [0, 97, 98, 0x7F, 0] [99] 10
    (by decide) (by decide) rfl).mpr
    (show DelsErase ([97, 98] ++ [0x7F]) from
      delsErase_concat_iff.mpr ⟨delsErase_of_not_mem (by decide), fun _ => by decide⟩)

/-- A DEL on an empty line becomes the line. -/
theorem not_readline_edits :
    ¬ ReadsLine none ⟨[0x7F, 10], [], fun _ => 0⟩ (typeAll edit [0x7F]).1 (typeAll edit [0x7F]).2 [] := by
  intro h
  have hkeys : ∀ c ∈ [0x7F], Typed c := by decide
  have hline : ReadsLine none ⟨[0x7F, 10], [], fun _ => 0⟩ _ _ [] :=
    readline_line (show ¬ Typed 10 by decide) hkeys rfl
  exact absurd (h.echo_unique hline) (by decide)

end Jos
