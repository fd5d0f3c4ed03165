import Jos.Lib.Printf

/-! The user library's buffered output: every character goes into one system call, in order. -/
namespace Jos

open Prog

/-- Seen through `R`, the library's stores and system calls do what the recorder's do. -/
structure UserLib.Records {ε σ : Type} (lib : UserLib ε σ) (R : Recording → σ → Prop) : Prop where
  store : ∀ i c a s, R a s → i.toNat < 256 → ∃ t, lib.store i c s = .ok () t ∧
    R { a with buf := Function.update a.buf i.toNat c } t
  sysCputs : ∀ n a s, R a s → n.toNat < 256 → ∃ t, lib.sysCputs n s = .ok () t ∧
    R { a with calls := a.calls ++ [(List.range n.toNat).map a.buf] } t

/-- What putch has taken so far is `l`: system calls for 255 bytes each, and the rest in the buffer. -/
structure Recording.Holds (l : List Byte) (b : Printbuf) (a : Recording) : Prop where
  room : b.idx.toNat ≤ 254
  taken : a.calls.flatten ++ (List.range b.idx.toNat).map a.buf = l
  full : ∀ c ∈ a.calls, c.length = 255

section records

variable {ε σ : Type} {lib : UserLib ε σ} {R : Recording → σ → Prop} {Ok : σ → Prop} {m : Word → Option Byte}
  {a : Recording} {b : Printbuf} {l : List Byte} {ws out : List Word} {w : Word} {s t : Printbuf × σ}
  {fmt : CharPtr} {ap : VaList} {fuel k : Nat} {c : Byte} {buf : Nat → Byte}

/-- One character more at the end of the buffer. -/
theorem map_range_succ_update : (List.range (k + 1)).map (Function.update buf k c) =
    (List.range k).map buf ++ [c] := by
  have hlow : (List.range k).map (Function.update buf k c) = (List.range k).map buf := by
    apply List.map_congr_left
    intro i hi
    rw [Function.update_of_ne (Nat.ne_of_lt (List.mem_range.mp hi))]
  rw [List.range_succ, List.map_append, hlow, List.map_singleton, Function.update_self]

namespace UserLib.Records

/-- putch takes one character, and makes room again once the buffer is full. -/
theorem putch (h : lib.Records R) (hr : R a s.2) (hb : a.Holds l s.1) (w : Word) :
    ∃ a' t, lib.putch w s = .ok () t ∧ R a' t.2 ∧ a'.Holds (l ++ [w.setWidth 8]) t.1 := by
  have hroom := hb.room
  obtain ⟨t, hstore, ht⟩ := h.store s.1.idx (w.setWidth 8) a s.2 hr (by omega)
  have htaken : a.calls.flatten ++
      (List.range (s.1.idx.toNat + 1)).map (Function.update a.buf s.1.idx.toNat (w.setWidth 8)) =
        l ++ [w.setWidth 8] := by
    rw [map_range_succ_update, ← List.append_assoc, hb.taken]
  by_cases hfull : s.1.idx.toNat = 254
  · obtain ⟨u, hcall, hu⟩ := h.sysCputs 255 _ t ht (by decide)
    refine ⟨_, _, putch_full hfull hstore hcall, hu, Nat.zero_le _, ?_, ?_⟩
    · change (a.calls ++ [(List.range 255).map
        (Function.update a.buf s.1.idx.toNat (w.setWidth 8))]).flatten ++ [] = _
      rw [List.append_nil, List.flatten_append, List.flatten_singleton, ← htaken, hfull]
    · intro x hx
      rcases List.mem_append.mp hx with hx | hx
      · exact hb.full x hx
      · rw [List.mem_singleton.mp hx, List.length_map, List.length_range]
        rfl
  · have hidx : (s.1.idx + 1).toNat = s.1.idx.toNat + 1 := toNat_add_one hroom
    refine ⟨_, _, putch_room (by omega) hstore, ht, ?_, ?_, hb.full⟩
    · change (s.1.idx + 1).toNat ≤ 254
      omega
    · change a.calls.flatten ++ (List.range (s.1.idx + 1).toNat).map _ = _
      rw [hidx, htaken]

theorem putAll (h : lib.Records R) (ws : List Word) (hr : R a s.2) (hb : a.Holds l s.1) :
    ∃ a' t, lib.putAll ws s = .ok () t ∧ R a' t.2 ∧ a'.Holds (l ++ ws.map (BitVec.setWidth 8)) t.1 := by
  induction ws generalizing a s l with
  | nil =>
    refine ⟨a, s, rfl, hr, ?_⟩
    rw [List.map_nil, List.append_nil]
    exact hb
  | cons w ws ih =>
    obtain ⟨a₁, t₁, hput, hr₁, hb₁⟩ := h.putch hr hb w
    obtain ⟨a₂, t₂, hrest, hr₂, hb₂⟩ := ih hr₁ hb₁
    refine ⟨a₂, t₂, ?_, hr₂, ?_⟩
    · rw [UserLib.putAll, bind_ok hput, hrest]
    · rw [List.map_cons, List.append_cons]
      exact hb₂

/-- The system calls together take the characters, at most 255 each; the last call is made in any case. -/
theorem session (h : lib.Records R) (ws : List Word) (hr : R a s.2) (hnone : a.calls = []) :
    ∃ cnt a' t, lib.session (lib.putAll ws) s = .ok cnt t ∧ R a' t.2 ∧
      a'.calls.flatten = ws.map (BitVec.setWidth 8) ∧ a'.calls ≠ [] ∧ ∀ c ∈ a'.calls, c.length ≤ 255 := by
  have hstart : a.Holds [] ⟨0, 0⟩ := by
    refine ⟨Nat.zero_le _, ?_, ?_⟩
    · rw [hnone]
      rfl
    · rw [hnone]
      intro c hc
      cases hc
  obtain ⟨a₁, t₁, hput, hr₁, hb₁⟩ := h.putAll (s := (⟨0, 0⟩, s.2)) ws hr hstart
  have hroom := hb₁.room
  obtain ⟨u, hcall, hu⟩ := h.sysCputs t₁.1.idx a₁ t₁.2 hr₁ (by omega)
  refine ⟨t₁.1.cnt, _, (t₁.1, u), ?_, hu, ?_, ?_, ?_⟩
  · rw [UserLib.session, bind_ok (update_apply _ _), bind_ok hput, bind_ok (read_apply _),
      bind_ok (lift_ok hcall)]
    rfl
  · rw [List.flatten_append, List.flatten_singleton]
    exact hb₁.taken
  · exact List.append_ne_nil_of_right_ne_nil _ (List.cons_ne_nil _ _)
  · intro c hc
    rcases List.mem_append.mp hc with hc | hc
    · exact (hb₁.full c hc).le
    · rw [List.mem_singleton.mp hc, List.length_map, List.length_range]
      omega

end UserLib.Records

theorem putAll_append {v : Word} (h : lib.putAll ws s = .ok () t) :
    lib.putAll (ws ++ [v]) s = lib.putch v t := by
  induction ws generalizing s with
  | nil =>
    obtain ⟨-, rfl⟩ := pure_eq_ok.mp h
    change (lib.putch v >>= fun _ => pure ()) s = _
    rw [bind_apply]
    cases lib.putch v s with
    | stop x u => rfl
    | ok x u => rfl
  | cons w ws ih =>
    obtain ⟨⟨⟩, u, hput, hrest⟩ := bind_eq_ok.mp h
    rw [List.cons_append, UserLib.putAll, bind_ok hput]
    exact ih hrest

/-- vcprintf is a session in which putch is given the output of vprintfmt. -/
theorem vcprintf_eq_putAll (h : lib.Quiet m Ok) (hemits : Emits ((screen m).vprintfmt fuel fmt ap) () out)
    (hs : Ok s.2) : lib.vcprintf fuel fmt ap s = lib.session (lib.putAll out) s := by
  let start : Printbuf × σ := (⟨0, 0⟩, s.2)
  have hgoes : Printer.Goes (Sim.always fun l u => lib.putAll l start = .ok () u ∧ UserLib.Counts Ok l u)
      (screen m) lib.printer := by
    constructor
    · intro a l c l' hload
      refine ⟨trivial, fun _ u hu => ?_⟩
      obtain ⟨ha, rfl⟩ := screen_load_eq_ok hload
      exact ⟨u, lift_ok (h.load a c u.2 hu.2.ok ha), hu⟩
    · intro w l v l' hput
      refine ⟨trivial, fun _ u hu => ?_⟩
      cases update_eq_ok.mp hput
      obtain ⟨t, ht, hcounts⟩ := h.putch hu.2 w
      exact ⟨t, ht, (putAll_append hu.1).trans ht, hcounts⟩
  obtain ⟨-, hrun⟩ := hgoes.vprintfmt fuel fmt ap [] () out (hemits [])
  obtain ⟨t, ht, hput, -⟩ := hrun trivial start ⟨rfl, hs, rfl, Nat.zero_le _⟩
  rw [UserLib.vcprintf, UserLib.session, UserLib.session, bind_ok (update_apply _ _),
    bind_ok (update_apply _ _), bind_ok ht, bind_ok hput]

theorem recorder_records (mem : Word → Byte) : (recorder mem).Records (· = ·) where
  store i c a s h _ := ⟨_, rfl, by rw [h]⟩
  sysCputs n a s h _ := ⟨_, rfl, by rw [h]⟩

/-- Whatever a program's cprintf puts out goes to the kernel, in order, in system calls for at most 255
bytes each. -/
theorem userVcprintf_calls (mem : Word → Byte)
    (hemits : Emits ((screen fun a => some (mem a)).vprintfmt fuel fmt ap) () out) (b : Printbuf)
    (buf : Nat → Byte) : ∃ cnt b' r, (recorder mem).vcprintf fuel fmt ap (b, ⟨buf, []⟩) = .ok cnt (b', r) ∧
      r.calls.flatten = out.map (BitVec.setWidth 8) ∧ ∀ c ∈ r.calls, c.length ≤ 255 := by
  obtain ⟨cnt, r, ⟨b', _⟩, hrun, rfl, htaken, -, hlen⟩ :=
    (recorder_records mem).session (s := (b, ⟨buf, []⟩)) out rfl rfl
  rw [← vcprintf_eq_putAll (quiet_recorder mem) hemits trivial] at hrun
  exact ⟨cnt, b', r, hrun, htaken, hlen⟩

end records

end Jos
