import Mathlib.Data.List.Basic
import Mathlib.Data.List.Infix
import Mathlib.Logic.Function.Basic

/-! A ring of `n` cells between a producer that never looks and a consumer: what is read of what has
been written. -/

/-- The cells, and where the next item is read and written. -/
structure RingBuf (α : Type) where
  buf : Nat → α
  rpos : Nat
  wpos : Nat

namespace RingBuf

variable {α : Type}

/-- The cell behind cell `i`. -/
def next (n i : Nat) : Nat := if i + 1 = n then 0 else i + 1

/-- Write an item, whether there is room or not. -/
def put (n : Nat) (r : RingBuf α) (a : α) : RingBuf α :=
  { r with buf := Function.update r.buf r.wpos a, wpos := next n r.wpos }

/-- Read the next item, unless the ring looks empty. -/
def get (n : Nat) (r : RingBuf α) : Option (α × RingBuf α) :=
  if r.rpos = r.wpos then none else some (r.buf r.rpos, { r with rpos := next n r.rpos })

/-- What happens to a ring: an item goes in, one comes out, or none is found. -/
inductive Item (α : Type) where
  | put (a : α)
  | got (a : α)
  | none
deriving DecidableEq

namespace Item

def written : Item α → Option α
  | put a => some a
  | _ => Option.none

def read : Item α → Option α
  | got a => some a
  | _ => Option.none

end Item

/-- Everything that went in. -/
def puts (h : List (Item α)) : List α := h.filterMap Item.written

/-- Everything that came out. -/
def gots (h : List (Item α)) : List α := h.filterMap Item.read

/-- The ring that a history leaves behind. -/
inductive Run (n : Nat) : RingBuf α → List (Item α) → Prop
  | start {r : RingBuf α} (hr : r.rpos = 0) (hw : r.wpos = 0) : Run n r []
  | put {r : RingBuf α} {h : List (Item α)} (hrun : Run n r h) (a : α) : Run n (r.put n a) (h ++ [.put a])
  | got {r r' : RingBuf α} {h : List (Item α)} {a : α} (hrun : Run n r h) (hget : r.get n = some (a, r')) :
    Run n r' (h ++ [.got a])
  | none {r : RingBuf α} {h : List (Item α)} (hrun : Run n r h) (hget : r.get n = Option.none) :
    Run n r (h ++ [.none])

/-- At no time were more items unread than a ring of `n` cells has room for. -/
def Fits (n : Nat) (h : List (Item α)) : Prop :=
  ∀ p, p <+: h → (puts p).length < (gots p).length + n

section lemmas

variable {n i : Nat} {r r' : RingBuf α} {h p : List (Item α)} {a : α} {w : List α} {head : Nat}

@[simp] theorem put_buf : (r.put n a).buf = Function.update r.buf r.wpos a := rfl

@[simp] theorem put_rpos : (r.put n a).rpos = r.rpos := rfl

@[simp] theorem put_wpos : (r.put n a).wpos = next n r.wpos := rfl

theorem next_mod (hn : 0 < n) (k : Nat) : next n (k % n) = (k + 1) % n := by
  have hlt := Nat.mod_lt k hn
  rw [next, Nat.add_mod k 1 n]
  by_cases h1 : n = 1
  · rw [h1, Nat.mod_one, Nat.mod_one, if_pos rfl]
  · rw [Nat.mod_eq_of_lt (show 1 < n by omega)]
    split
    · next heq => rw [heq, Nat.mod_self]
    · next hne => exact (Nat.mod_eq_of_lt (show k % n + 1 < n by omega)).symm

/-- Two places less than a turn apart are different cells. -/
theorem mod_eq_mod_iff {j k : Nat} (hjk : j ≤ k) (hk : k < j + n) : j % n = k % n ↔ j = k := by
  constructor
  · intro heq
    have hdvd := Nat.dvd_of_mod_eq_zero (Nat.sub_mod_eq_zero_of_mod_eq heq.symm)
    have hzero := Nat.eq_zero_of_dvd_of_lt hdvd (by omega)
    omega
  · rintro rfl
    rfl

/-- The items `w` have been written, and the one numbered `head` is read next. -/
structure Tracks (n : Nat) (r : RingBuf α) (w : List α) (head : Nat) : Prop where
  le : head ≤ w.length
  lag : w.length < head + n
  rpos : r.rpos = head % n
  wpos : r.wpos = w.length % n
  held : ∀ j, head ≤ j → j < w.length → w[j]? = some (r.buf (j % n))

theorem Tracks.size_pos (ht : Tracks n r w head) : 0 < n := by
  have hle := ht.le
  have hlag := ht.lag
  omega

theorem Tracks.rpos_lt (ht : Tracks n r w head) : r.rpos < n := by
  rw [ht.rpos]
  exact Nat.mod_lt _ ht.size_pos

theorem Tracks.wpos_lt (ht : Tracks n r w head) : r.wpos < n := by
  rw [ht.wpos]
  exact Nat.mod_lt _ ht.size_pos

/-- The ring looks empty exactly when everything written has been read. -/
theorem Tracks.empty_iff (ht : Tracks n r w head) : r.rpos = r.wpos ↔ head = w.length := by
  rw [ht.rpos, ht.wpos]
  exact mod_eq_mod_iff ht.le ht.lag

theorem tracks_start (hn : 0 < n) (hr : r.rpos = 0) (hw : r.wpos = 0) : Tracks n r [] 0 where
  le := Nat.le_refl 0
  lag := by rwa [List.length_nil, Nat.zero_add]
  rpos := by rw [hr, Nat.zero_mod]
  wpos := by rw [hw, List.length_nil, Nat.zero_mod]
  held := fun j _ hj => absurd hj (Nat.not_lt_zero j)

/-- As long as there is room, what is next to be read stays. -/
theorem Tracks.put (ht : Tracks n r w head) (hroom : w.length + 1 < head + n) :
    Tracks n (r.put n a) (w ++ [a]) head where
  le := by
    have hle := ht.le
    rw [List.length_append, List.length_singleton]
    omega
  lag := by rwa [List.length_append, List.length_singleton]
  rpos := ht.rpos
  wpos := by
    rw [List.length_append, List.length_singleton, put_wpos, ht.wpos, next_mod ht.size_pos]
  held := by
    intro j h1 h2
    rw [List.length_append, List.length_singleton] at h2
    rw [put_buf, ht.wpos]
    by_cases hj : j = w.length
    · rw [hj, Function.update_self, List.getElem?_concat_length]
    · have hne : j % n ≠ w.length % n := by
        rw [Ne, mod_eq_mod_iff (by omega) (by omega)]
        exact hj
      rw [Function.update_of_ne hne, List.getElem?_append_left (by omega)]
      exact ht.held j h1 (by omega)

/-- The item that fills the ring makes it look empty. -/
theorem Tracks.overrun (ht : Tracks n r w head) (hfull : w.length + 1 = head + n) :
    Tracks n (r.put n a) (w ++ [a]) (w.length + 1) where
  le := by rw [List.length_append, List.length_singleton]
  lag := by
    have hpos := ht.size_pos
    rw [List.length_append, List.length_singleton]
    omega
  rpos := by
    rw [hfull, Nat.add_mod_right]
    exact ht.rpos
  wpos := by
    rw [List.length_append, List.length_singleton, put_wpos, ht.wpos, next_mod ht.size_pos]
  held := by
    intro j h1 h2
    rw [List.length_append, List.length_singleton] at h2
    omega

theorem Tracks.get (ht : Tracks n r w head) (hget : r.get n = some (a, r')) :
    w[head]? = some a ∧ Tracks n r' w (head + 1) := by
  rw [RingBuf.get] at hget
  split at hget
  · cases hget
  · next hne =>
    cases hget
    have hle := ht.le
    have hlt : head < w.length := by
      have hne' := mt ht.empty_iff.mpr hne
      omega
    have hlag := ht.lag
    refine ⟨by rw [ht.held head (Nat.le_refl _) hlt, ht.rpos], hlt, by omega, ?_, ht.wpos, ?_⟩
    · rw [ht.rpos, next_mod ht.size_pos]
    · intro j h1 h2
      exact ht.held j (by omega) h2

@[simp] theorem puts_put : puts (h ++ [.put a]) = puts h ++ [a] := by
  simp [puts, Item.written]

@[simp] theorem puts_got : puts (h ++ [.got a]) = puts h := by
  simp [puts, Item.written]

@[simp] theorem puts_none : puts (h ++ [.none]) = puts h := by
  simp [puts, Item.written]

@[simp] theorem gots_put : gots (h ++ [.put a]) = gots h := by
  simp [gots, Item.read]

@[simp] theorem gots_got : gots (h ++ [.got a]) = gots h ++ [a] := by
  simp [gots, Item.read]

@[simp] theorem gots_none : gots (h ++ [.none]) = gots h := by
  simp [gots, Item.read]

theorem take_concat_get (hhead : w[head]? = some a) : w.take (head + 1) = w.take head ++ [a] := by
  rw [List.take_add_one, hhead, Option.toList_some]

/-- What has been read of what has been written, at any time. -/
theorem Run.tracks (hn : 0 < n) (hrun : Run n r h) :
    ∃ head, Tracks n r (puts h) head ∧ (gots h).Sublist ((puts h).take head) := by
  induction hrun with
  | start hr hw =>
    exact ⟨0, tracks_start hn hr hw, List.Sublist.refl _⟩
  | @put r h hrun a ih =>
    obtain ⟨head, ht, hsub⟩ := ih
    have hle := ht.le
    have hlag := ht.lag
    rw [puts_put, gots_put]
    by_cases hroom : (puts h).length + 1 < head + n
    · refine ⟨head, ht.put hroom, ?_⟩
      rwa [List.take_append_of_le_length hle]
    · refine ⟨_, ht.overrun (by omega), ?_⟩
      rw [List.take_of_length_le (by rw [List.length_append, List.length_singleton])]
      exact (hsub.trans (List.take_sublist _ _)).trans (List.sublist_append_left _ _)
  | got hrun hget ih =>
    obtain ⟨head, ht, hsub⟩ := ih
    obtain ⟨ha, ht'⟩ := ht.get hget
    rw [puts_got, gots_got]
    refine ⟨head + 1, ht', ?_⟩
    rw [take_concat_get ha]
    exact hsub.append (List.Sublist.refl _)
  | none hrun hget ih =>
    rw [puts_none, gots_none]
    exact ih

theorem Run.lt (hn : 0 < n) (hrun : Run n r h) : r.rpos < n ∧ r.wpos < n := by
  obtain ⟨head, ht, -⟩ := hrun.tracks hn
  exact ⟨ht.rpos_lt, ht.wpos_lt⟩

/-- What comes out went in, in the same order. -/
theorem Run.sublist (hn : 0 < n) (hrun : Run n r h) : (gots h).Sublist (puts h) := by
  obtain ⟨head, -, hsub⟩ := hrun.tracks hn
  exact hsub.trans (List.take_sublist _ _)

theorem Fits.mono (hf : Fits n h) (hp : p <+: h) : Fits n p := fun q hq => hf q (hq.trans hp)

/-- As long as there is room, the ring is a queue. -/
theorem Run.queue (hn : 0 < n) (hrun : Run n r h) (hf : Fits n h) :
    Tracks n r (puts h) (gots h).length ∧ gots h = (puts h).take (gots h).length := by
  induction hrun with
  | start hr hw =>
    exact ⟨tracks_start hn hr hw, rfl⟩
  | put hrun a ih =>
    obtain ⟨ht, hprefix⟩ := ih (hf.mono (List.prefix_append _ _))
    have hroom := hf _ (List.prefix_refl _)
    rw [puts_put, gots_put, List.length_append, List.length_singleton] at hroom
    rw [puts_put, gots_put, List.take_append_of_le_length ht.le]
    exact ⟨ht.put hroom, hprefix⟩
  | got hrun hget ih =>
    obtain ⟨ht, hprefix⟩ := ih (hf.mono (List.prefix_append _ _))
    obtain ⟨ha, ht'⟩ := ht.get hget
    rw [puts_got, gots_got, List.length_append, List.length_singleton, take_concat_get ha, ← hprefix]
    exact ⟨ht', rfl⟩
  | none hrun hget ih =>
    obtain ⟨ht, hprefix⟩ := ih (hf.mono (List.prefix_append _ _))
    rw [puts_none, gots_none]
    exact ⟨ht, hprefix⟩

/-- Nothing is found only when everything has been read. -/
theorem Run.none_empty (hn : 0 < n) (hrun : Run n r (h ++ [.none])) (hf : Fits n h) :
    gots h = puts h := by
  generalize hl : h ++ [Item.none] = l at hrun
  cases hrun with
  | start hr hw => exact absurd hl (List.concat_ne_nil _ _)
  | put hrun a => exact absurd (List.append_inj' hl rfl).2 (by simp)
  | got hrun hget => exact absurd (List.append_inj' hl rfl).2 (by simp)
  | none hrun hget =>
    obtain ⟨rfl, -⟩ := List.append_inj' hl rfl
    obtain ⟨ht, hprefix⟩ := hrun.queue hn hf
    have hempty : r.rpos = r.wpos := by
      rw [RingBuf.get] at hget
      split at hget
      · assumption
      · cases hget
    rw [ht.empty_iff.mp hempty, List.take_length] at hprefix
    exact hprefix

end lemmas

end RingBuf
