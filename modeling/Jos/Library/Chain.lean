import Mathlib.Data.List.Nodup
import Mathlib.Logic.Function.Basic

/-! Singly linked lists threaded through a link function and ended by `none`. -/

/-- Following `link` from `head` visits exactly the listed nodes and ends. -/
def Chain {α : Type} (link : α → Option α) : Option α → List α → Prop
  | head, [] => head = none
  | head, p :: ps => head = some p ∧ Chain link (link p) ps

namespace Chain

variable {α : Type} {link link' : α → Option α} {head : Option α} {p : α} {ps qs : List α}

@[simp] theorem nil_iff : Chain link head [] ↔ head = none := Iff.rfl

@[simp] theorem cons_iff : Chain link head (p :: ps) ↔ head = some p ∧ Chain link (link p) ps :=
  Iff.rfl

theorem of_none (h : Chain link none ps) : ps = [] := by
  cases ps with
  | nil => rfl
  | cons q qs => simp at h

theorem of_some (h : Chain link (some p) ps) : ∃ qs, ps = p :: qs ∧ Chain link (link p) qs := by
  cases ps with
  | nil => simp at h
  | cons q qs =>
    obtain ⟨hq, hqs⟩ := h
    cases hq
    exact ⟨qs, rfl, hqs⟩

theorem head_eq (h : Chain link head ps) : head = ps.head? := by
  cases ps with
  | nil => exact h
  | cons p ps => exact h.1

theorem link_eq (h : Chain link head (p :: ps)) : link p = ps.head? := head_eq h.2

theorem cons (hp : link p = head) (h : Chain link head ps) : Chain link (some p) (p :: ps) := by
  subst hp
  exact ⟨rfl, h⟩

theorem tail (h : Chain link head (p :: ps)) : Chain link ps.head? ps := by
  rw [← link_eq h]
  exact h.2

/-- A chain is determined by its head. -/
theorem unique (hp : Chain link head ps) (hq : Chain link head qs) : ps = qs := by
  induction ps generalizing head qs with
  | nil =>
    cases hp
    exact (of_none hq).symm
  | cons p ps ih =>
    obtain ⟨rfl, hp⟩ := hp
    obtain ⟨qs, rfl, htail⟩ := of_some hq
    rw [ih hp htail]

theorem congr (h : Chain link head ps) (hl : ∀ p ∈ ps, link' p = link p) :
    Chain link' head ps := by
  induction ps generalizing head with
  | nil => exact h
  | cons p ps ih =>
    refine ⟨h.1, ?_⟩
    rw [hl p (by simp)]
    exact ih h.2 (fun q hq => hl q (by simp [hq]))

/-- The part of a chain behind any of its nodes is that node's own chain. -/
theorem drop (h : Chain link head (ps ++ p :: qs)) : Chain link (some p) (p :: qs) := by
  induction ps generalizing head with
  | nil => exact ⟨rfl, h.2⟩
  | cons q ps ih => exact ih h.2

/-- A chain that ends visits no node twice: a second visit would restart the same tail. -/
theorem nodup (h : Chain link head ps) : ps.Nodup := by
  induction ps generalizing head with
  | nil => exact List.nodup_nil
  | cons p ps ih =>
    refine List.nodup_cons.mpr ⟨?_, ih h.2⟩
    intro hp
    obtain ⟨as, bs, rfl⟩ := List.append_of_mem hp
    have htail := unique (drop h.2) (show Chain link (some p) (p :: (as ++ p :: bs)) from ⟨rfl, h.2⟩)
    have := congrArg List.length htail
    simp at this
    omega

/-- Two chains from one head that follow the same links up to `p` both visit `p`. -/
theorem mem_of_prefix (hq : Chain link' head qs) (hp : Chain link head (ps ++ p :: [])) 
    (hl : ∀ q ∈ ps, link' q = link q) : p ∈ qs := by
  induction ps generalizing head qs with
  | nil =>
    obtain ⟨rfl, -⟩ := hp
    obtain ⟨qs, rfl, -⟩ := of_some hq
    simp
  | cons a ps ih =>
    obtain ⟨rfl, hp⟩ := hp
    obtain ⟨qs, rfl, htail⟩ := of_some hq
    rw [hl a (by simp)] at htail
    exact List.mem_cons_of_mem a (ih htail hp fun q hm => hl q (by simp [hm]))

end Chain
