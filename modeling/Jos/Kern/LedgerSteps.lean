import Jos.Kern.Ledger

/-! What each elementary step of the allocator and of the page tables does to the ledger. -/
namespace Jos

namespace Kernel

/-- Unlink the head of the free list. -/
def take (s : Kernel) (p : Nat) : Kernel :=
  { s with pageFreeList := (s.pages p).ppLink }.setLink p none

/-- Put a page at the head of the free list. -/
def push (s : Kernel) (p : Nat) : Kernel :=
  { s.setLink p s.pageFreeList with pageFreeList := some p }

def incRef (s : Kernel) (p : Nat) : Kernel := s.setRef p ((s.pages p).ppRef + 1)

def decRef (s : Kernel) (p : Nat) : Kernel := s.setRef p ((s.pages p).ppRef - 1)

/-- page_decref on a page with a reference: its last reference frees it. -/
def drop (s : Kernel) (p : Nat) : Kernel :=
  if (s.pages p).ppRef = 1 then (s.decRef p).push p else s.decRef p

variable {s : Kernel} {p q : Nat}

@[simp] theorem ppRef_take : ((s.take p).pages q).ppRef = (s.pages q).ppRef := by
  simp [take]

@[simp] theorem ppRef_push : ((s.push p).pages q).ppRef = (s.pages q).ppRef := by
  simp [push]

theorem ppRef_incRef (s : Kernel) (p q : Nat) :
    ((s.incRef p).pages q).ppRef = (s.pages q).ppRef + if q = p then 1 else 0 := by
  simp only [incRef, ppRef_setRef]
  split <;> simp_all

theorem ppRef_drop (s : Kernel) (p q : Nat) :
    ((s.drop p).pages q).ppRef = (s.pages q).ppRef - if q = p then 1 else 0 := by
  have hdec : ((s.decRef p).pages q).ppRef = (s.pages q).ppRef - if q = p then 1 else 0 := by
    simp only [decRef, ppRef_setRef]
    split <;> simp_all
  unfold drop
  split
  · rw [ppRef_push, hdec]
  · exact hdec

end Kernel

namespace Balanced

variable {s s' : Kernel} {L : Ledger} {fl : List Nat} {d i j p q t : Nat} {w : Word}

/-- Taking the head of the free list hands out that page. -/
theorem take (h : Balanced s L (p :: fl)) : Balanced (s.take p) (L.loosen p) fl := by
  have hp : p ∈ p :: fl := by simp
  have hnd := List.nodup_cons.mp h.nodup
  have hlink := h.chain.2
  refine ⟨h.npages_le, ?_, ?_, ?_, ?_, ?_, h.dir_lt, h.own_user, h.table, h.table_inj,
    h.mapped⟩
  case refine_1 =>
    apply hlink.congr
    intro q hq
    have hne : q ≠ p := by rintro rfl; exact hnd.1 hq
    simp [Kernel.take, Kernel.ppLink_setLink, hne]
  case refine_2 =>
    intro q
    have hq := h.mem_free q
    simp only [List.mem_cons] at hq
    simp only [Kernel.take, Kernel.ppRef_setLink, Ledger.loosen, Finset.mem_insert]
    constructor
    · intro hm
      obtain ⟨h1, h2, h3⟩ := hq.mp (Or.inr hm)
      refine ⟨h1, h2, ?_⟩
      rintro (rfl | hl)
      · exact hnd.1 hm
      · exact h3 hl
    · rintro ⟨h1, h2, h3⟩
      rw [not_or] at h3
      exact (hq.mpr ⟨h1, h2, h3.2⟩).resolve_left h3.1
  case refine_3 =>
    intro q hq
    simp only [Ledger.loosen, Finset.mem_insert] at hq
    simp only [Kernel.take, Kernel.ppRef_setLink]
    rcases hq with rfl | hq
    · exact ⟨h.free_lt hp, h.free_ref hp⟩
    · exact h.loose q hq
  case refine_4 =>
    intro q hlt hq
    simp only [Kernel.take, Kernel.ppLink_setLink]
    split
    · rfl
    · rename_i hne
      exact h.link_null q hlt (by simp [hne, hq])
  case refine_5 =>
    intro q hlt
    simp only [Kernel.take, Kernel.ppRef_setLink]
    exact h.count q hlt

/-- page_free: a loose page goes back to the head of the list. -/
theorem push (h : Balanced s L fl) (hp : p ∈ L.loose) : Balanced (s.push p) (L.settle p) (p :: fl) := by
  have hpf : p ∉ fl := fun hm => ((h.mem_free p).mp hm).2.2 hp
  obtain ⟨hlt, href⟩ := h.loose p hp
  refine ⟨h.npages_le, ⟨rfl, ?_⟩, ?_, ?_, ?_, ?_, h.dir_lt, h.own_user, h.table, h.table_inj,
    h.mapped⟩
  case refine_1 =>
    simp only [Kernel.push, Kernel.ppLink_setLink, if_true]
    apply h.chain.congr
    intro q hq
    have hne : q ≠ p := by rintro rfl; exact hpf hq
    simp [hne]
  case refine_2 =>
    intro q
    simp only [Kernel.push, Kernel.ppRef_setLink, Ledger.settle, Finset.mem_erase, List.mem_cons,
      h.mem_free q]
    by_cases hq : q = p
    · subst hq
      simp [hlt, href, Kernel.setLink]
    · simp [hq, Kernel.setLink]
  case refine_3 =>
    intro q hq
    simp only [Kernel.push, Kernel.ppRef_setLink]
    exact h.loose q (Finset.mem_of_mem_erase hq)
  case refine_4 =>
    intro q hlt' hq
    simp only [List.mem_cons, not_or] at hq
    simp only [Kernel.push, Kernel.ppLink_setLink, hq.1, if_false]
    exact h.link_null q hlt' hq.2
  case refine_5 =>
    intro q hlt'
    simp only [Kernel.push, Kernel.ppRef_setLink]
    exact h.count q hlt'

/-- Counting a reference before it is stored anywhere: it is held by the running code. -/
theorem incRef (h : Balanced s L fl) (hp : p < s.npages) (hf : p ∉ fl)
    (hr : (s.pages p).ppRef.toNat < 65535) :
    Balanced (s.incRef p) ((L.settle p).hold p) fl := by
  have hne : (s.pages p).ppRef + 1 ≠ 0 := by bv_omega
  have href : ∀ q, q ≠ p → ((s.incRef p).pages q).ppRef = (s.pages q).ppRef := by
    intro q hq
    simp [Kernel.incRef, Kernel.ppRef_setRef, hq]
  have hrefp : ((s.incRef p).pages p).ppRef = (s.pages p).ppRef + 1 := by
    simp [Kernel.incRef, Kernel.ppRef_setRef]
  have hlinks : ∀ q, ((s.incRef p).pages q).ppLink = (s.pages q).ppLink := by
    simp [Kernel.incRef]
  refine ⟨h.npages_le, h.chain.congr fun q _ => hlinks q, ?_, ?_, ?_, ?_, h.dir_lt, h.own_user,
    h.table, h.table_inj, h.mapped⟩
  case refine_1 =>
    intro q
    by_cases hq : q = p
    · subst hq
      simp only [hf, hrefp, hne, false_and, and_false]
    · rw [h.mem_free q, href q hq]
      simp [Ledger.hold, Ledger.settle, hq, Kernel.incRef, Kernel.setRef]
  case refine_2 =>
    intro q hq
    simp only [Ledger.hold, Ledger.settle, Finset.mem_erase] at hq
    rw [href q hq.1]
    exact h.loose q hq.2
  case refine_3 =>
    intro q hlt hq
    rw [hlinks q]
    exact h.link_null q hlt hq
  case refine_4 =>
    intro q hlt
    have hc := h.count q hlt
    have hsame : refs (s.incRef p) ((L.settle p).hold p) q = refs s L q := rfl
    rw [hsame, Ledger.held_hold, Ledger.root_hold, Ledger.root_settle]
    change _ = _ + _ + (L.held q + _)
    by_cases hq : q = p
    · subst hq
      rw [hrefp, show ((s.pages q).ppRef + 1).toNat = (s.pages q).ppRef.toNat + 1 by bv_omega,
        if_pos rfl]
      omega
    · rw [href q hq, if_neg hq]
      omega

/-- page_decref gives up a held reference; the last one puts the page on the free list. -/
theorem drop (h : Balanced s (L.hold p) fl) (hp : p < s.npages) :
    Balanced (s.drop p) L (if (s.pages p).ppRef = 1 then p :: fl else fl) := by
  have hcp := h.count p hp
  rw [Ledger.held_hold, if_pos rfl] at hcp
  have hpos : (s.pages p).ppRef ≠ 0 := by
    intro h0
    rw [h0] at hcp
    simp at hcp
  have hpf : p ∉ fl := fun hm => hpos (h.free_ref hm)
  have hpl : p ∉ L.loose := fun hm => hpos (h.loose p hm).2
  have href : ∀ q, ((s.drop p).pages q).ppRef =
      if q = p then (s.pages p).ppRef - 1 else (s.pages q).ppRef := by
    intro q
    rw [Kernel.ppRef_drop]
    split <;> simp_all
  have hcount : ∀ q < s.npages, ((s.drop p).pages q).ppRef.toNat =
      refs s L q + L.root q + L.held q := by
    intro q hlt
    have hc := h.count q hlt
    have hsame : refs s (L.hold p) q = refs s L q := rfl
    rw [hsame, Ledger.held_hold, Ledger.root_hold] at hc
    rw [href q]
    by_cases hq : q = p
    · subst hq
      rw [if_pos rfl] at hc
      rw [if_pos rfl, show ((s.pages q).ppRef - 1).toNat = (s.pages q).ppRef.toNat - 1 by bv_omega]
      omega
    · rw [if_neg hq] at hc
      rw [if_neg hq]
      omega
  have hmem : (s.drop p).npages = s.npages ∧ (s.drop p).mem = s.mem := by
    unfold Kernel.drop
    split <;> exact ⟨rfl, rfl⟩
  have hpde : (s.drop p).pde = s.pde := by
    funext d i
    simp only [Kernel.pde, hmem.2]
  have hpte : (s.drop p).pte = s.pte := by
    funext d i j
    simp only [Kernel.pte, hpde, hmem.2]
  have hrefs : ∀ q, refs (s.drop p) L q = refs s L q := by
    intro q
    apply refs_congr
    rintro (⟨d, i⟩ | ⟨d, i, j⟩) _ <;> simp only [names, hpde, hpte]
  refine ⟨hmem.1 ▸ h.npages_le, ?_, ?_, ?_, ?_, ?_, hmem.1 ▸ h.dir_lt, h.own_user, ?_, ?_, ?_⟩
  case refine_1 =>
    unfold Kernel.drop
    split
    · refine ⟨rfl, ?_⟩
      simp only [Kernel.push, Kernel.decRef, Kernel.ppLink_setLink, if_true]
      apply h.chain.congr
      intro q hq
      have hne : q ≠ p := by rintro rfl; exact hpf hq
      simp [hne]
    · apply h.chain.congr
      intro q _
      simp [Kernel.decRef]
  case refine_2 =>
    intro q
    have hq := h.mem_free q
    simp only [Ledger.hold] at hq
    rw [href q, hmem.1]
    by_cases hqp : q = p
    · subst hqp
      have hz : (s.pages q).ppRef - 1 = 0 ↔ (s.pages q).ppRef = 1 := by
        constructor <;> intro h0 <;> bv_omega
      simp only [if_true, hz, hp, hpl, not_false_eq_true, and_true, true_and]
      by_cases h1 : (s.pages q).ppRef = 1
      · simp [h1]
      · simp only [h1, if_false, hpf]
    · rw [if_neg hqp, ← hq]
      split <;> simp [hqp]
  case refine_3 =>
    intro q hq
    have hne : q ≠ p := by rintro rfl; exact hpl hq
    rw [href q, hmem.1, if_neg hne]
    exact h.loose q hq
  case refine_4 =>
    intro q hlt hq
    rw [hmem.1] at hlt
    unfold Kernel.drop
    split
    · rename_i h1
      simp only [h1, if_true, List.mem_cons, not_or] at hq
      simp only [Kernel.push, Kernel.ppLink_setLink, hq.1, if_false, Kernel.decRef,
        Kernel.ppLink_setRef]
      exact h.link_null q hlt hq.2
    · rename_i h1
      simp only [h1, if_false] at hq
      simp only [Kernel.decRef, Kernel.ppLink_setRef]
      exact h.link_null q hlt hq
  case refine_5 =>
    intro q hlt
    rw [hrefs q]
    exact hcount q (hmem.1 ▸ hlt)
  case refine_6 => rw [hpde, hmem.1]; exact h.table
  case refine_7 => rw [hpde]; exact h.table_inj
  case refine_8 => rw [hpte, hmem.1]; exact h.mapped

/-- A change of memory moves references between the slots and the running code. -/
theorem retarget (h : Balanced s L fl) {g : Nat → Nat} (hn : s'.npages = s.npages)
    (hp : s'.pages = s.pages) (hf : s'.pageFreeList = s.pageFreeList)
    (hcount : ∀ q, refs s' L q + g q = refs s L q + L.held q)
    (htable : ∀ d ∈ L.dirs, ∀ i ∈ L.own d, ∀ t, target (s'.pde d i) = some t →
      t < s.npages ∧ t ∉ L.dirs)
    (hinj : ∀ d ∈ L.dirs, ∀ i ∈ L.own d, ∀ d' ∈ L.dirs, ∀ i' ∈ L.own d', ∀ t,
      target (s'.pde d i) = some t → target (s'.pde d' i') = some t → d = d' ∧ i = i')
    (hmapped : ∀ d ∈ L.dirs, ∀ i < 955, ∀ j < 1024, ∀ p, target (s'.pte d i j) = some p →
      p < s.npages) :
    Balanced s' { L with held := g } fl := by
  refine ⟨hn ▸ h.npages_le, ?_, ?_, ?_, ?_, ?_, hn ▸ h.dir_lt, h.own_user, hn ▸ htable, hinj,
    hn ▸ hmapped⟩
  · rw [hp, hf]; exact h.chain
  · rw [hn, hp]; exact h.mem_free
  · rw [hn, hp]; exact h.loose
  · rw [hn, hp]; exact h.link_null
  · intro q hlt
    have hc := h.count q (hn ▸ hlt)
    have hq := hcount q
    rw [hp]
    change _ = refs s' L q + L.root q + g q
    omega

section table

variable (h : Balanced s L fl) (hd : d ∈ L.dirs) (hi : i ∈ L.own d) (ht : target (s.pde d i) = some t)
include h hd hi ht

theorem pde_storeTable {d' i' : Nat} (hd' : d' ∈ L.dirs) : (s.store t j w).pde d' i' = s.pde d' i' := by
  apply Kernel.mem_store_of_ne
  rintro rfl
  exact (h.table d hd i hi d' ht).2 hd'

/-- Storing into an owned table changes the one entry it stores to, in one directory. -/
theorem pte_storeTable {d' i' j' : Nat} (hd' : d' ∈ L.dirs) (hi' : i' ∈ L.own d') :
    (s.store t j w).pte d' i' j' = if d' = d ∧ i' = i ∧ j' = j then w else s.pte d' i' j' := by
  have hpde : (s.store t j w).pde d' i' = s.pde d' i' := h.pde_storeTable hd hi ht hd'
  cases ht' : target (s.pde d' i') with
  | none =>
    rw [Kernel.pte_of_no_table ht', Kernel.pte_of_no_table (hpde ▸ ht')]
    split
    · rename_i he
      obtain ⟨rfl, rfl, -⟩ := he
      rw [ht] at ht'
      cases ht'
    · rfl
  | some t' =>
    rw [Kernel.pte_of_target ht', Kernel.pte_of_target (hpde ▸ ht'), Kernel.mem_store]
    by_cases he : t' = t
    · subst he
      obtain ⟨rfl, rfl⟩ := h.table_inj d' hd' i' hi' d hd i hi t' ht' ht
      simp
    · have hne : ¬ (d' = d ∧ i' = i ∧ j' = j) := by
        rintro ⟨rfl, rfl, -⟩
        rw [ht] at ht'
        exact he (Option.some.inj ht').symm
      simp [he, hne]

theorem names_storeTable {x : Slot} (hx : x ∈ L.slots) :
    names (s.store t j w) x = if x = .inr (d, i, j) then target w else names s x := by
  rcases x with ⟨d', i'⟩ | ⟨d', i', j'⟩
  · rw [Ledger.inl_mem_slots] at hx
    simp only [names, h.pde_storeTable hd hi ht hx.1, reduceCtorEq, if_false]
  · rw [Ledger.inr_mem_slots] at hx
    have hi' := h.own_user d' hx.1 i' hx.2.1
    simp only [names, h.pte_storeTable hd hi ht hx.1 hi', Sum.inr.injEq, Prod.mk.injEq]
    split <;> rfl

/-- Rewriting an entry of a user table moves its reference. -/
theorem refs_storeTable (hu : i < 955) (hj : j < 1024) (q : Nat) :
    refs (s.store t j w) L q + (if target (s.pte d i j) = some q then 1 else 0) =
      refs s L q + (if target w = some q then 1 else 0) := by
  have hx : Sum.inr (d, i, j) ∈ L.slots := Ledger.inr_mem_slots.mpr ⟨hd, hu, hj⟩
  have hself : names (s.store t j w) (.inr (d, i, j)) = target w := by
    rw [h.names_storeTable hd hi ht hx, if_pos rfl]
  have hrest : ∀ y ∈ L.slots, y ≠ .inr (d, i, j) → names (s.store t j w) y = names s y := by
    intro y hy hne
    rw [h.names_storeTable hd hi ht hy, if_neg hne]
  have hupd := RefCount.refs_update (p := q) hx hrest
  rwa [hself] at hupd

theorem storeTable {g : Nat → Nat} (hu : i < 955) (hj : j < 1024)
    (hw : ∀ p, target w = some p → p < s.npages)
    (hg : ∀ q, (if target w = some q then 1 else 0) + g q =
      (if target (s.pte d i j) = some q then 1 else 0) + L.held q) :
    Balanced (s.store t j w) { L with held := g } fl := by
  refine h.retarget rfl rfl rfl ?hcount ?htable ?hinj ?hmapped
  case hcount =>
    intro q
    have hr := h.refs_storeTable hd hi ht (w := w) hu hj q
    have hq := hg q
    omega
  case htable =>
    intro d' hd' i' hi' t' ht'
    rw [h.pde_storeTable hd hi ht hd'] at ht'
    exact h.table d' hd' i' hi' t' ht'
  case hinj =>
    intro d₁ hd₁ i₁ hi₁ d₂ hd₂ i₂ hi₂ t' h₁ h₂
    rw [h.pde_storeTable hd hi ht hd₁] at h₁
    rw [h.pde_storeTable hd hi ht hd₂] at h₂
    exact h.table_inj d₁ hd₁ i₁ hi₁ d₂ hd₂ i₂ hi₂ t' h₁ h₂
  case hmapped =>
    intro d' hd' i' hi' j' hj' p hp
    rw [h.pte_storeTable hd hi ht hd' (h.own_user d' hd' i' hi')] at hp
    split at hp
    · exact hw p hp
    · exact h.mapped d' hd' i' hi' j' hj' p hp

end table

/-- A held reference is stored into an empty entry. -/
theorem mapEntry (h : Balanced s (L.hold p) fl) (hd : d ∈ L.dirs) (hu : i < 955) (hj : j < 1024)
    (ht : target (s.pde d i) = some t) (hp : p < s.npages) (hold : target (s.pte d i j) = none)
    (hw : target w = some p) : Balanced (s.store t j w) L fl := by
  have hi : i ∈ (L.hold p).own d := h.own_user d hd i hu
  have hb := h.storeTable (w := w) (g := L.held) hd hi ht hu hj
    (fun q hq => by rw [hw] at hq; cases hq; exact hp) (fun q => by
      rw [hold, hw, Ledger.held_hold]
      by_cases hq : q = p
      · simp [hq, Nat.add_comm]
      · simp [hq, Ne.symm hq])
  exact hb

/-- Clearing an entry leaves its reference in the hands of the running code. -/
theorem clearEntry (h : Balanced s L fl) (hd : d ∈ L.dirs) (hu : i < 955) (hj : j < 1024)
    (ht : target (s.pde d i) = some t) (hold : target (s.pte d i j) = some p) :
    Balanced (s.store t j 0#32) (L.hold p) fl := by
  have hi : i ∈ L.own d := h.own_user d hd i hu
  have hb := h.storeTable (w := 0#32) (g := (L.hold p).held) hd hi ht hu hj (by simp) (fun q => by
    rw [hold, target_zero, Ledger.held_hold]
    by_cases hq : q = p
    · simp [hq, Nat.add_comm]
    · simp [hq, Ne.symm hq])
  exact hb

section directory

variable (h : Balanced s L fl) (hd : d ∈ L.dirs) (hi : i ∈ L.own d)
  (hempty : ∀ j < 1024, target (s.pte d i j) = none)
  (hw : ∀ p, target w = some p → p < s.npages ∧ p ∉ L.dirs ∧
    (∀ d' ∈ L.dirs, ∀ i' ∈ L.own d', target (s.pde d' i') ≠ some p) ∧
    ∀ j < 1024, target (s.mem p j) = none)
include h hd hi

omit h hd hi in
theorem pde_storeDir {d' i' : Nat} :
    (s.store d i w).pde d' i' = if d' = d ∧ i' = i then w else s.pde d' i' := rfl

/-- Storing into a directory changes no translation of its other entries. -/
theorem pte_storeDir {d' i' j' : Nat} (hd' : d' ∈ L.dirs) (hi' : i' ∈ L.own d')
    (hne : ¬ (d' = d ∧ i' = i)) : (s.store d i w).pte d' i' j' = s.pte d' i' j' := by
  apply Kernel.pte_congr
  · rw [pde_storeDir, if_neg hne]
  · intro t ht
    apply Kernel.mem_store_of_ne
    rintro rfl
    exact (h.table d' hd' i' hi' t ht).2 hd

include hempty hw

theorem target_pte_storeDir {d' i' j' : Nat} (hd' : d' ∈ L.dirs) (hi' : i' ∈ L.own d')
    (hj' : j' < 1024) : target ((s.store d i w).pte d' i' j') = target (s.pte d' i' j') := by
  by_cases he : d' = d ∧ i' = i
  · obtain ⟨rfl, rfl⟩ := he
    rw [hempty j' hj']
    cases hwt : target w with
    | none =>
      rw [Kernel.pte_of_no_table (by rw [pde_storeDir]; simpa using hwt), target_zero]
    | some p =>
      obtain ⟨-, hpd, -, hz⟩ := hw p hwt
      rw [Kernel.pte_of_target (t := p) (by rw [pde_storeDir]; simpa using hwt),
        Kernel.mem_store_of_ne (by rintro rfl; exact hpd hd)]
      exact hz j' hj'
  · rw [h.pte_storeDir hd hi hd' hi' he]

/-- Naming an empty table, or dropping one, moves the table's own reference only. -/
theorem storeDir {g : Nat → Nat}
    (hg : ∀ q, (if target w = some q then 1 else 0) + g q =
      (if target (s.pde d i) = some q then 1 else 0) + L.held q) :
    Balanced (s.store d i w) { L with held := g } fl := by
  have hself : names (s.store d i w) (.inl ⟨d, i⟩) = target w := by simp [names, pde_storeDir]
  refine h.retarget rfl rfl rfl ?hcount ?htable ?hinj ?hmapped
  case hcount =>
    intro q
    have hx : Sum.inl ⟨d, i⟩ ∈ L.slots := Ledger.inl_mem_slots.mpr ⟨hd, hi⟩
    have hrest : ∀ y ∈ L.slots, y ≠ .inl ⟨d, i⟩ → names (s.store d i w) y = names s y := by
      rintro (⟨d', i'⟩ | ⟨d', i', j'⟩) hy hne
      · have hne' : ¬ (d' = d ∧ i' = i) := by
          rintro ⟨rfl, rfl⟩
          exact hne rfl
        simp only [names, pde_storeDir, if_neg hne']
      · rw [Ledger.inr_mem_slots] at hy
        exact h.target_pte_storeDir hd hi hempty hw hy.1 (h.own_user d' hy.1 i' hy.2.1) hy.2.2
    have hr := RefCount.refs_update (p := q) hx hrest
    rw [hself] at hr
    have hq := hg q
    change refs (s.store d i w) L q + (if target (s.pde d i) = some q then 1 else 0) =
      refs s L q + (if target w = some q then 1 else 0) at hr
    omega
  case htable =>
    intro d' hd' i' hi' t ht
    rw [pde_storeDir] at ht
    split at ht
    · exact ⟨(hw t ht).1, (hw t ht).2.1⟩
    · exact h.table d' hd' i' hi' t ht
  case hinj =>
    intro d₁ hd₁ i₁ hi₁ d₂ hd₂ i₂ hi₂ t h₁ h₂
    rw [pde_storeDir] at h₁ h₂
    split at h₁ <;> split at h₂
    · simp_all
    · exact absurd h₂ ((hw t h₁).2.2.1 d₂ hd₂ i₂ hi₂)
    · exact absurd h₁ ((hw t h₂).2.2.1 d₁ hd₁ i₁ hi₁)
    · exact h.table_inj d₁ hd₁ i₁ hi₁ d₂ hd₂ i₂ hi₂ t h₁ h₂
  case hmapped =>
    intro d' hd' i' hi' j' hj' p hp
    rw [h.target_pte_storeDir hd hi hempty hw hd' (h.own_user d' hd' i' hi') hj'] at hp
    exact h.mapped d' hd' i' hi' j' hj' p hp

end directory

/-- A held, empty page becomes the page table of an entry that had none. -/
theorem installTable (h : Balanced s (L.hold p) fl) (hd : d ∈ L.dirs) (hi : i ∈ L.own d)
    (hp : p < s.npages) (hdir : p ∉ L.dirs) (hr : refs s L p = 0) (hz : ∀ j < 1024, s.mem p j = 0#32)
    (hold : target (s.pde d i) = none) (hw : target w = some p) : Balanced (s.store d i w) L fl := by
  have hb := h.storeDir (w := w) (g := L.held) hd hi
    (fun j _ => by rw [Kernel.pte_of_no_table hold, target_zero])
    (fun q hq => by
      rw [hw] at hq
      cases hq
      refine ⟨hp, hdir, fun d' hd' i' hi' => table_ne_of_refs hr hd' hi', fun j hj => ?_⟩
      rw [hz j hj, target_zero])
    (fun q => by
      rw [hold, hw, Ledger.held_hold]
      by_cases hq : q = p
      · simp [hq, Nat.add_comm]
      · simp [hq, Ne.symm hq])
  exact hb

/-- Dropping an empty page table leaves its reference in the hands of the running code. -/
theorem clearTable (h : Balanced s L fl) (hd : d ∈ L.dirs) (hi : i ∈ L.own d)
    (hold : target (s.pde d i) = some t) (hempty : ∀ j < 1024, target (s.pte d i j) = none) :
    Balanced (s.store d i 0#32) (L.hold t) fl := by
  have hb := h.storeDir (w := 0#32) (g := (L.hold t).held) hd hi hempty (by simp) (fun q => by
    rw [hold, target_zero, Ledger.held_hold]
    by_cases hq : q = t
    · simp [hq, Nat.add_comm]
    · simp [hq, Ne.symm hq])
  exact hb

/-- A held page whose user entries are empty becomes a page directory. -/
theorem addDir (h : Balanced s (L.hold p) fl) (hp : p < s.npages) (hdir : p ∉ L.dirs)
    (htab : ∀ d ∈ L.dirs, ∀ i ∈ L.own d, target (s.pde d i) ≠ some p)
    (hempty : ∀ i < 955, target (s.pde p i) = none) : Balanced s (L.addDir p) fl := by
  have hne : ∀ d ∈ L.dirs, d ≠ p := by
    rintro d hd rfl
    exact hdir hd
  have hown : ∀ d ∈ L.dirs, (L.addDir p).own d = L.own d :=
    fun d hd => Ledger.own_addDir_of_ne (hne d hd)
  have hnew : ∀ i ∈ (L.addDir p).own p, target (s.pde p i) = none := by
    intro i hi
    rw [Ledger.own_addDir_self, Ledger.mem_userEntries] at hi
    exact hempty i hi
  have hnewpte : ∀ i < 955, ∀ j, target (s.pte p i j) = none := by
    intro i hi j
    rw [Kernel.pte_of_no_table (hempty i hi), target_zero]
  refine ⟨h.npages_le, h.chain, h.mem_free, h.loose, h.link_null, ?count, ?dir, ?own, ?table, ?inj,
    ?mapped⟩
  case count =>
    intro q hlt
    have hrefs : refs s (L.addDir p) q = refs s L q := by
      apply RefCount.refs_of_subset
      · rintro (⟨d, i⟩ | ⟨d, i, j⟩) hx
        · rw [Ledger.inl_mem_slots] at hx ⊢
          exact ⟨Ledger.mem_dirs_addDir.mpr (Or.inr hx.1), hown d hx.1 ▸ hx.2⟩
        · rw [Ledger.inr_mem_slots] at hx ⊢
          exact ⟨Ledger.mem_dirs_addDir.mpr (Or.inr hx.1), hx.2⟩
      · rintro (⟨d, i⟩ | ⟨d, i, j⟩) hx hnx
        · rw [Ledger.inl_mem_slots] at hx hnx
          rcases Ledger.mem_dirs_addDir.mp hx.1 with rfl | hd
          · exact hnew i hx.2
          · exact absurd ⟨hd, hown d hd ▸ hx.2⟩ hnx
        · rw [Ledger.inr_mem_slots] at hx hnx
          rcases Ledger.mem_dirs_addDir.mp hx.1 with rfl | hd
          · exact hnewpte i hx.2.1 j
          · exact absurd ⟨hd, hx.2⟩ hnx
    have hc := h.count q hlt
    rw [Ledger.held_hold, Ledger.root_hold] at hc
    rw [hrefs, hc]
    change refs s L q + _ + _ = _ + _ + L.held q
    by_cases hq : q = p
    · subst hq
      rw [Ledger.root_of_notMem hdir, Ledger.root_of_mem (by simp), if_pos rfl]
      omega
    · rw [if_neg hq]
      simp [Ledger.root, hq]
  case dir =>
    intro d hd
    rcases Ledger.mem_dirs_addDir.mp hd with rfl | hd
    · exact hp
    · exact h.dir_lt d hd
  case own =>
    intro d hd i hi
    rcases Ledger.mem_dirs_addDir.mp hd with rfl | hd
    · rwa [Ledger.own_addDir_self, Ledger.mem_userEntries]
    · rw [hown d hd]
      exact h.own_user d hd i hi
  case table =>
    intro d hd i hi t ht
    rcases Ledger.mem_dirs_addDir.mp hd with rfl | hmem
    · rw [hnew i hi] at ht
      cases ht
    · rw [hown d hmem] at hi
      obtain ⟨h1, h2⟩ := h.table d hmem i hi t ht
      refine ⟨h1, fun hm => ?_⟩
      rcases Ledger.mem_dirs_addDir.mp hm with rfl | hm'
      · exact htab d hmem i hi ht
      · exact h2 hm'
  case inj =>
    intro d₁ hd₁ i₁ hi₁ d₂ hd₂ i₂ hi₂ t h₁ h₂
    rcases Ledger.mem_dirs_addDir.mp hd₁ with rfl | hd₁
    · rw [hnew i₁ hi₁] at h₁
      cases h₁
    · rcases Ledger.mem_dirs_addDir.mp hd₂ with rfl | hd₂
      · rw [hnew i₂ hi₂] at h₂
        cases h₂
      · rw [hown d₁ hd₁] at hi₁
        rw [hown d₂ hd₂] at hi₂
        exact h.table_inj d₁ hd₁ i₁ hi₁ d₂ hd₂ i₂ hi₂ t h₁ h₂
  case mapped =>
    intro d hd i hi j hj q hq
    rcases Ledger.mem_dirs_addDir.mp hd with rfl | hd
    · rw [hnewpte i hi j] at hq
      cases hq
    · exact h.mapped d hd i hi j hj q hq

/-- A directory without tables stops being one; its own reference is left to the running code. -/
theorem dropDir (h : Balanced s L fl) (hd : d ∈ L.dirs)
    (hempty : ∀ i ∈ L.own d, target (s.pde d i) = none) :
    Balanced s ((L.dropDir d).hold d) fl := by
  have hpte : ∀ i < 955, ∀ j, target (s.pte d i j) = none := by
    intro i hi j
    rw [Kernel.pte_of_no_table (hempty i (h.own_user d hd i hi)), target_zero]
  have hsub : ∀ d' ∈ (L.dropDir d).dirs, d' ∈ L.dirs :=
    fun d' hd' => (Ledger.mem_dirs_dropDir.mp hd').2
  refine ⟨h.npages_le, h.chain, h.mem_free, h.loose, h.link_null, ?count,
    fun d' hd' => h.dir_lt d' (hsub d' hd'), fun d' hd' => h.own_user d' (hsub d' hd'), ?table,
    fun d₁ hd₁ i₁ hi₁ d₂ hd₂ => h.table_inj d₁ (hsub d₁ hd₁) i₁ hi₁ d₂ (hsub d₂ hd₂),
    fun d' hd' => h.mapped d' (hsub d' hd')⟩
  case count =>
    intro q hlt
    have hrefs : refs s L q = refs s (L.dropDir d) q := by
      apply RefCount.refs_of_subset
      · rintro (⟨d', i⟩ | ⟨d', i, j⟩) hx
        · rw [Ledger.inl_mem_slots] at hx ⊢
          exact ⟨hsub d' hx.1, hx.2⟩
        · rw [Ledger.inr_mem_slots] at hx ⊢
          exact ⟨hsub d' hx.1, hx.2⟩
      · rintro (⟨d', i⟩ | ⟨d', i, j⟩) hx hnx
        · rw [Ledger.inl_mem_slots] at hx hnx
          have he : d' = d := by
            by_contra hne
            exact hnx ⟨Ledger.mem_dirs_dropDir.mpr ⟨hne, hx.1⟩, hx.2⟩
          subst he
          exact hempty i hx.2
        · rw [Ledger.inr_mem_slots] at hx hnx
          have he : d' = d := by
            by_contra hne
            exact hnx ⟨Ledger.mem_dirs_dropDir.mpr ⟨hne, hx.1⟩, hx.2⟩
          subst he
          exact hpte i hx.2.1 j
    have hc := h.count q hlt
    rw [hc, hrefs, Ledger.held_hold, Ledger.root_hold]
    change refs s (L.dropDir d) q + _ + L.held q = refs s (L.dropDir d) q + _ + (L.held q + _)
    by_cases hq : q = d
    · subst hq
      rw [Ledger.root_of_mem hd, Ledger.root_of_notMem (by simp), if_pos rfl]
      omega
    · rw [if_neg hq]
      simp [Ledger.root, hq]
  case table =>
    intro d' hd' i hi t ht
    obtain ⟨h1, h2⟩ := h.table d' (hsub d' hd') i hi t ht
    exact ⟨h1, fun hm => h2 (hsub t hm)⟩

/-- Zeroing a page nothing refers to as a directory or table is invisible. -/
theorem fill (h : Balanced s L fl) (hdir : p ∉ L.dirs)
    (htab : ∀ d ∈ L.dirs, ∀ i ∈ L.own d, target (s.pde d i) ≠ some p) (n : Nat) (w : Word) :
    Balanced (s.fill p n w) L fl := by
  have hpde : ∀ d ∈ L.dirs, ∀ i, (s.fill p n w).pde d i = s.pde d i := by
    intro d hd i
    apply Kernel.mem_fill_of_ne
    rintro rfl
    exact hdir hd
  refine h.congr rfl rfl rfl ?_ ?_
  · intro d hd i _
    exact hpde d hd i
  · intro d hd i hi j _
    apply Kernel.pte_congr (hpde d hd i)
    intro t ht
    apply Kernel.mem_fill_of_ne
    rintro rfl
    exact htab d hd i (h.own_user d hd i hi) ht

end Balanced

end Jos
