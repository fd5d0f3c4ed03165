import Jos.Kern.MemInit
import Jos.Kern.BootHeap

/-! check_page_free_list(1) relinks the free list: the pages that the entry page directory maps
come first, in their old order. -/
namespace Jos

open Prog

section loop

variable {α : Type} {body : α → Nat → Kern α}

/-- A loop over the free list whose body keeps an invariant of the pages still to come. -/
theorem forLink_returns {I : List Nat → α → Kernel → Prop}
    (hstep : ∀ pp todo acc s, I (pp :: todo) acc s → Returns (body acc pp) s fun acc' t =>
      (t.pages pp).ppLink = todo.head? ∧ I todo acc' t) :
    ∀ (todo : List Nat) (fuel : Nat) (acc : α) (s : Kernel), todo.length ≤ fuel → I todo acc s →
      Returns (forLink body fuel todo.head? acc) s (I []) := by
  intro todo
  induction todo with
  | nil =>
    intro fuel acc s _ hI
    refine Returns.of_ok ?_ hI
    cases fuel <;> rfl
  | cons pp todo ih =>
    intro fuel acc s hlen hI
    cases fuel with
    | zero => simp at hlen
    | succ fuel =>
      have hstep' := hstep pp todo acc s hI
      apply Returns.bind hstep'
      rintro acc' t ⟨hlink, hI'⟩
      refine Returns.step (read_apply t) ?_
      rw [hlink]
      exact ih fuel acc' t (by simpa using hlen) hI'

end loop

section sort

variable {s t : Kernel} {l : SortList} {xs ys : List Nat} {o : Option Nat} {pp q : Nat}

/-- The pages of one of the two lists are linked to each other; the last one is the tail. -/
structure SortedOnto (s : Kernel) (l : SortList) (xs : List Nat) : Prop where
  first : l.first = xs.head?
  tail : l.tail = match xs.getLast? with
    | none => LinkSlot.var
    | some q => .link q
  links : xs.IsChain fun a b => (s.pages a).ppLink = some b

/-- The state after a store to where the next page goes. -/
def SortList.put (l : SortList) (o : Option Nat) (s : Kernel) : Kernel :=
  match l.tail with
  | .var => s
  | .link q => s.setLink q o

def SortList.fill (l : SortList) (o : Option Nat) : SortList :=
  match l.tail with
  | .var => { l with first := o }
  | .link _ => l

theorem assign_ok : l.assign o s = .ok (l.fill o) (l.put o s) := by
  unfold SortList.assign SortList.fill SortList.put
  cases l.tail <;> rfl

theorem ppRef_put {q : Nat} : ((l.put o s).pages q).ppRef = (s.pages q).ppRef := by
  unfold SortList.put
  split
  · rfl
  · rw [Kernel.ppRef_setLink]

theorem put_rest : l.put o s = { s with pages := (l.put o s).pages } := by
  unfold SortList.put
  split <;> rfl

theorem SortedOnto.nil : SortedOnto s ⟨none, .var⟩ [] := ⟨rfl, rfl, List.IsChain.nil⟩

theorem SortedOnto.congr (h : SortedOnto s l xs)
    (hl : ∀ q ∈ xs, (t.pages q).ppLink = (s.pages q).ppLink) : SortedOnto t l xs where
  first := h.first
  tail := h.tail
  links := by
    have hl' : ∀ a b, a ∈ xs → b ∈ xs → (s.pages a).ppLink = some b → (t.pages a).ppLink = some b :=
      fun a b ha _ hab => (hl a ha).trans hab
    exact List.IsChain.imp_of_mem_imp hl' h.links

/-- Only the last page of the list is relinked. -/
theorem SortedOnto.ppLink_put (h : SortedOnto s l xs) {q : Nat} (hq : q ∉ xs) :
    ((l.put o s).pages q).ppLink = (s.pages q).ppLink := by
  unfold SortList.put
  rw [h.tail]
  cases hl : xs.getLast? with
  | none => rfl
  | some r =>
    have hr : r ∈ xs := List.mem_of_getLast? hl
    have hne : q ≠ r := by rintro rfl; exact hq hr
    simp [Kernel.ppLink_setLink, hne]

theorem put_of_nil (h : SortedOnto s l []) (o : Option Nat) : l.put o s = s ∧ (l.fill o).first = o := by
  obtain ⟨first, tail⟩ := l
  obtain rfl : tail = .var := h.tail
  exact ⟨rfl, rfl⟩

theorem put_of_concat (h : SortedOnto s l (xs ++ [q])) (o : Option Nat) :
    l.put o s = s.setLink q o ∧ (l.fill o).first = (xs ++ [q]).head? := by
  have hfirst := h.first
  obtain ⟨first, tail⟩ := l
  obtain rfl : tail = .link q := by simpa using h.tail
  exact ⟨rfl, hfirst⟩

/-- The link that is set is the one behind the last page, which no other link depends on. -/
theorem SortedOnto.links_put (h : SortedOnto s l xs) (hnd : xs.Nodup) (o : Option Nat) :
    xs.IsChain fun a b => ((l.put o s).pages a).ppLink = some b := by
  rcases xs.eq_nil_or_concat with rfl | ⟨ys, q, rfl⟩
  · exact List.IsChain.nil
  · rw [List.concat_eq_append] at h hnd ⊢
    rw [(put_of_concat h o).1]
    have hold := List.isChain_append.mp h.links
    refine List.isChain_append.mpr ⟨?_, List.isChain_singleton q, ?_⟩
    · have hne : ∀ a ∈ ys, a ≠ q := by
        rintro a ha rfl
        exact (List.nodup_append.mp hnd).2.2 a ha a (by simp) rfl
      have himp : ∀ a b, a ∈ ys → b ∈ ys → (s.pages a).ppLink = some b →
          ((s.setLink q o).pages a).ppLink = some b := by
        intro a b ha _ hab
        rw [Kernel.ppLink_setLink, if_neg (hne a ha), hab]
      exact List.IsChain.imp_of_mem_imp himp hold.1
    · intro a ha b hb
      have hne : a ≠ q := by
        rintro rfl
        exact (List.nodup_append.mp hnd).2.2 a (List.mem_of_getLast? ha) a (by simp) rfl
      rw [Kernel.ppLink_setLink, if_neg hne]
      exact hold.2.2 a ha b hb

theorem SortedOnto.append (h : SortedOnto s l xs) (hnd : xs.Nodup) (pp : Nat) :
    SortedOnto (l.put (some pp) s) { l.fill (some pp) with tail := .link pp } (xs ++ [pp]) := by
  refine ⟨?_, by simp, ?_⟩
  · rcases xs.eq_nil_or_concat with rfl | ⟨ys, q, rfl⟩
    · exact (put_of_nil h (some pp)).2
    · rw [List.concat_eq_append] at h ⊢
      rw [(put_of_concat h (some pp)).2]
      simp
  · refine List.isChain_append.mpr ⟨h.links_put hnd _, List.isChain_singleton pp, ?_⟩
    intro a ha b hb
    obtain rfl : pp = b := by simpa using hb
    obtain ⟨ys, rfl⟩ := List.getLast?_eq_some_iff.mp ha
    rw [(put_of_concat h _).1, Kernel.ppLink_setLink, if_pos rfl]

theorem chain_of_links {link : Nat → Option Nat}
    (h : (xs ++ [q]).IsChain fun a b => link a = some b) (hc : Chain link (link q) ys) :
    Chain link (xs ++ [q]).head? (xs ++ [q] ++ ys) := by
  induction xs with
  | nil => exact ⟨rfl, hc⟩
  | cons x xs ih =>
    rw [List.cons_append, List.isChain_cons] at h
    refine ⟨rfl, ?_⟩
    have hnext : link x = (xs ++ [q]).head? := by
      cases xs with
      | nil => exact h.1 q rfl
      | cons y xs => exact h.1 y rfl
    rw [hnext]
    exact ih h.2

/-- Ending a list with the head of a chain joins the two. -/
theorem SortedOnto.close (ys : List Nat) (h : SortedOnto s l xs) (hnd : xs.Nodup) (hoff : ∀ y ∈ ys, y ∉ xs)
    (hc : Chain (fun p => (s.pages p).ppLink) o ys) :
    Chain (fun p => ((l.put o s).pages p).ppLink) (l.fill o).first (xs ++ ys) := by
  have hc' : Chain (fun p => ((l.put o s).pages p).ppLink) o ys :=
    hc.congr fun y hy => h.ppLink_put (hoff y hy)
  have hlinks := h.links_put hnd o
  rcases xs.eq_nil_or_concat with rfl | ⟨zs, q, rfl⟩
  · rw [(put_of_nil h o).2]
    exact hc'
  · rw [List.concat_eq_append] at h hlinks ⊢
    rw [(put_of_concat h o).2]
    apply chain_of_links hlinks
    rw [(put_of_concat h o).1, Kernel.ppLink_setLink, if_pos rfl, ← (put_of_concat h o).1]
    exact hc'

end sort

section sorting

variable {s t : Kernel} {fl done todo low high : List Nat} {l l' : SortList}
  {ls : SortList × SortList} {limit pp : Nat}

/-- The page's physical address lies below the limit, counted in directory entries. -/
def Below (limit pp : Nat) : Prop := pdx (page2pa pp) < limit

instance (limit pp : Nat) : Decidable (Below limit pp) := inferInstanceAs (Decidable (_ < _))

/-- The free list with the pages below the limit first. -/
def sortedList (limit : Nat) (fl : List Nat) : List Nat :=
  fl.filter (Below limit ·) ++ fl.filter (!Below limit ·)

/-- While the free list is sorted, the pages done are on the two lists in their old order, and only
links of the free list have changed. -/
structure Sorting (limit : Nat) (s : Kernel) (fl done todo : List Nat) (ls : SortList × SortList)
    (t : Kernel) : Prop where
  split : fl = done ++ todo
  rest : t = { s with pages := t.pages }
  ref : ∀ q, (t.pages q).ppRef = (s.pages q).ppRef
  off : ∀ q ∉ fl, (t.pages q).ppLink = (s.pages q).ppLink
  pending : Chain (fun q => (t.pages q).ppLink) todo.head? todo
  low : SortedOnto t ls.1 (done.filter (Below limit ·))
  high : SortedOnto t ls.2 (done.filter (!Below limit ·))

/-- The free list has been sorted, and only links of its pages have changed. -/
structure Sorted (limit : Nat) (s : Kernel) (fl : List Nat) (t : Kernel) : Prop where
  rest : t = { s with pages := t.pages, pageFreeList := t.pageFreeList }
  ref : ∀ q, (t.pages q).ppRef = (s.pages q).ppRef
  off : ∀ q ∉ fl, (t.pages q).ppLink = (s.pages q).ppLink
  chain : Chain (fun q => (t.pages q).ppLink) t.pageFreeList (sortedList limit fl)

/-- What the store to a list's tail leaves alone: the pages of the other list and those to come. -/
theorem Sorting.put (h : Sorting limit s fl done (pp :: todo) ls t) (hl : SortedOnto t l low)
    (hl' : SortedOnto t l' high) (hnd : (low ++ high ++ pp :: todo).Nodup)
    (hsub : ∀ q ∈ low, q ∈ fl) :
    SortedOnto (l.put (some pp) t) { l.fill (some pp) with tail := .link pp } (low ++ [pp]) ∧
      SortedOnto (l.put (some pp) t) l' high ∧
      ((l.put (some pp) t).pages pp).ppLink = todo.head? ∧
      Chain (fun q => ((l.put (some pp) t).pages q).ppLink) todo.head? todo ∧
      (l.put (some pp) t = { s with pages := (l.put (some pp) t).pages }) ∧
      (∀ q, ((l.put (some pp) t).pages q).ppRef = (s.pages q).ppRef) ∧
      ∀ q ∉ fl, ((l.put (some pp) t).pages q).ppLink = (s.pages q).ppLink := by
  obtain ⟨hxy, -, hoff⟩ := List.nodup_append.mp hnd
  obtain ⟨hx, -, hdisj⟩ := List.nodup_append.mp hxy
  have hc : Chain (fun q => ((l.put (some pp) t).pages q).ppLink) (some pp) (pp :: todo) := by
    apply h.pending.congr
    intro q hq
    apply hl.ppLink_put
    intro hm
    exact hoff q (by simp [hm]) q hq rfl
  refine ⟨hl.append hx pp, hl'.congr ?_, hc.link_eq, hc.tail, ?_, fun q => ?_, fun q hq => ?_⟩
  · intro q hq
    apply hl.ppLink_put
    intro hm
    exact hdisj q hm q hq rfl
  · rw [put_rest, h.rest]
  · rw [ppRef_put, h.ref]
  · rw [hl.ppLink_put (fun hm => hq (hsub q hm)), h.off q hq]

/-- One round of the sorting loop: the page joins the end of the list its address puts it on. -/
theorem Sorting.step (hnd : fl.Nodup) (h : Sorting limit s fl done (pp :: todo) ls t) :
    Returns (if pdx (page2pa pp) ≥ limit then do
        let high ← ls.2.assign (some pp)
        pure (ls.1, { high with tail := .link pp })
      else do
        let low ← ls.1.assign (some pp)
        pure ({ low with tail := .link pp }, ls.2)) t fun ls' t' =>
      (t'.pages pp).ppLink = todo.head? ∧ Sorting limit s fl (done ++ [pp]) todo ls' t' := by
  have hsplit : fl = done ++ [pp] ++ todo := by rw [h.split, List.append_assoc, List.singleton_append]
  have hperm : (done.filter (Below limit ·) ++ done.filter (!Below limit ·) ++ pp :: todo).Perm fl := by
    rw [h.split]
    exact (List.filter_append_perm _ done).append_right _
  have hlow : (done.filter (Below limit ·) ++ done.filter (!Below limit ·) ++ pp :: todo).Nodup :=
    hperm.nodup_iff.mpr hnd
  have hhigh : (done.filter (!Below limit ·) ++ done.filter (Below limit ·) ++ pp :: todo).Nodup :=
    (List.perm_append_comm.append_right _).nodup_iff.mpr hlow
  have hmem : ∀ q ∈ done, q ∈ fl := fun q hq => h.split ▸ List.mem_append_left _ hq
  split
  · rename_i hge
    have hb : ¬ Below limit pp := Nat.not_lt.mpr hge
    obtain ⟨happ, hkeep, hlink, htail, hrest, href, hoff⟩ :=
      h.put h.high h.low hhigh fun q hq => hmem q (List.mem_filter.mp hq).1
    refine Returns.step assign_ok (Returns.of_ok rfl ⟨hlink, hsplit, hrest, href, hoff, htail, ?_, ?_⟩)
    · simpa [List.filter_append, hb] using hkeep
    · simpa [List.filter_append, hb] using happ
  · rename_i hlt
    have hb : Below limit pp := Nat.not_le.mp hlt
    obtain ⟨happ, hkeep, hlink, htail, hrest, href, hoff⟩ :=
      h.put h.low h.high hlow fun q hq => hmem q (List.mem_filter.mp hq).1
    refine Returns.step assign_ok (Returns.of_ok rfl ⟨hlink, hsplit, hrest, href, hoff, htail, ?_, ?_⟩)
    · simpa [List.filter_append, hb] using happ
    · simpa [List.filter_append, hb] using hkeep

/-- The two lists are joined by closing the second before the first is linked to it, which is right
also when one of them is empty. -/
theorem Sorting.finish (hnd : fl.Nodup) (h : Sorting limit s fl done [] ls t) :
    Returns (do
      let high ← ls.2.assign none
      let low ← ls.1.assign high.first
      update fun u : Kernel => { u with pageFreeList := low.first }) t fun _ u =>
        Sorted limit s fl u := by
  obtain rfl : fl = done := by rw [h.split, List.append_nil]
  have hperm := List.filter_append_perm (Below limit ·) fl
  obtain ⟨hnlow, hnhigh, hdisj⟩ := List.nodup_append.mp (hperm.nodup_iff.mpr hnd)
  have hoff : ∀ y ∈ fl.filter (!Below limit ·), y ∉ fl.filter (Below limit ·) :=
    fun y hy hm => hdisj y hm y hy rfl
  have hc := h.high.close [] (o := none) hnhigh (by simp) rfl
  rw [List.append_nil] at hc
  have hlow' : SortedOnto (ls.2.put none t) ls.1 (fl.filter (Below limit ·)) :=
    h.low.congr fun q hq => h.high.ppLink_put fun hm => hoff q hm hq
  have hc' := hlow'.close _ (o := (ls.2.fill none).first) hnlow hoff hc
  refine Returns.step assign_ok (Returns.step assign_ok
    (Returns.of_ok (update_apply _ _) ⟨?_, fun q => ?_, fun q hq => ?_, hc'⟩))
  · rw [put_rest, put_rest, h.rest]
  · exact ppRef_put.trans (ppRef_put.trans (h.ref q))
  · have hl : q ∉ fl.filter (Below limit ·) := fun hm => hq (List.mem_filter.mp hm).1
    have hh : q ∉ fl.filter (!Below limit ·) := fun hm => hq (List.mem_filter.mp hm).1
    exact (hlow'.ppLink_put hl).trans ((h.high.ppLink_put hh).trans (h.off q hq))

/-- A chain of existing pages is no longer than there are pages. -/
theorem chain_length_le {link : Nat → Option Nat} {head : Option Nat} {n : Nat}
    (hc : Chain link head fl) (hlt : ∀ p ∈ fl, p < n) : fl.length ≤ n := by
  have hsub : fl ⊆ List.range n := fun p hp => List.mem_range.mpr (hlt p hp)
  have hle := (hc.nodup.subperm hsub).length_le
  rwa [List.length_range] at hle

theorem lowPagesFirst_sorted (hc : Chain (fun p => (s.pages p).ppLink) s.pageFreeList fl)
    (hlt : ∀ p ∈ fl, p < s.npages) (limit : Nat) :
    Returns (lowPagesFirst limit) s fun _ t => Sorted limit s fl t := by
  have hhead : s.pageFreeList = fl.head? := hc.head_eq
  have hstart : Sorting limit s fl [] fl (⟨none, .var⟩, ⟨none, .var⟩) s :=
    ⟨rfl, rfl, fun _ => rfl, fun _ _ => rfl, hhead ▸ hc, SortedOnto.nil, SortedOnto.nil⟩
  rw [lowPagesFirst, forFreeList]
  apply Returns.bind (Q := fun ls t => ∃ done, Sorting limit s fl done [] ls t)
  · refine Returns.step (read_apply s) ?_
    rw [hhead]
    refine forLink_returns (I := fun todo ls t => ∃ done, Sorting limit s fl done todo ls t) ?_ fl _ _ s
      (chain_length_le hc hlt) ⟨[], hstart⟩
    rintro pp todo ls t ⟨done, h⟩
    apply Returns.mono (h.step hc.nodup)
    rintro ls' t' ⟨hlink, h'⟩
    exact ⟨hlink, _, h'⟩
  · rintro ls t ⟨done, h⟩
    exact h.finish hc.nodup

end sorting

section entryPgdir

/-- entry_pgdir and entry_pgtable (kern/entrypgdir.c), in the pages of the kernel image they are
linked at. -/
def entryPgdir (pgdir pgtable : Nat) : Nat → Nat → Word := fun q i =>
  if q = pgdir then
    if i = 0 then page2pa pgtable + pteP
    else if i = pdx kernbase then page2pa pgtable + pteP + pteW
    else 0#32
  else if q = pgtable ∧ i < nptentries then
    page2pa i ||| pteP ||| pteW
  else
    0#32

/-- The kernel reaches page `p` through entry_pgdir, where it will look for it. -/
def EntryMapped (p : Nat) : Prop :=
  ∀ pgdir pgtable, pgdir ≠ pgtable → pgtable < 2 ^ 20 →
    hwWalk (entryPgdir pgdir pgtable) pgdir (kernbase + page2pa p) =
      some ⟨pgnum (page2pa p), false, true⟩

variable {p : Nat}

/-- `x + PTE_P + PTE_W`, as the static tables spell it. -/
theorem entry_add (q : Nat) : page2pa q + pteP + pteW = page2pa q ||| (pteP ||| pteW) := by
  have hand : page2pa q &&& (pteP ||| pteW) = 0#32 := by
    have := not_has_page2pa (p := q) (f := pteP ||| pteW) (by decide)
    unfold Has at this
    exact not_not.mp this
  rw [BitVec.add_assoc, show pteP + pteW = pteP ||| pteW from rfl]
  exact BitVec.add_eq_or_of_and_eq_zero _ _ hand

theorem entryMapped_of_below (h : Below 1 p) : EntryMapped p := by
  intro pgdir pgtable hne hlt
  have hpa : (page2pa p).toNat < 2 ^ 22 := by
    have h0 : pdx (page2pa p) < 1 := h
    rw [pdx_eq] at h0
    omega
  have hva : (kernbase + page2pa p).toNat = 960 * 2 ^ 22 + (page2pa p).toNat := by
    rw [BitVec.toNat_add, show kernbase.toNat = 960 * 2 ^ 22 from rfl]
    omega
  have hdir : pdx (kernbase + page2pa p) = pdx kernbase := by
    rw [pdx_kernbase, pdx_eq, hva]
    omega
  have htbl : ptx (kernbase + page2pa p) = pgnum (page2pa p) := by
    rw [ptx_eq, hva, pgnum_eq]
    omega
  have hpg : pgnum (page2pa p) < nptentries := by
    rw [pgnum_eq, nptentries]
    omega
  have hpde : entryPgdir pgdir pgtable pgdir (pdx (kernbase + page2pa p)) =
      page2pa pgtable ||| (pteP ||| pteW) := by
    rw [entryPgdir, if_pos rfl, hdir, if_neg (by decide), if_pos rfl, entry_add]
  have hpt : pgnum (page2pa pgtable ||| (pteP ||| pteW)) = pgtable := pgnum_entry hlt (by decide)
  have hpte : entryPgdir pgdir pgtable pgtable (ptx (kernbase + page2pa p)) =
      page2pa (pgnum (page2pa p)) ||| (pteP ||| pteW) := by
    rw [entryPgdir, if_neg (Ne.symm hne), htbl, if_pos ⟨rfl, hpg⟩, BitVec.or_assoc]
  have hpage : pgnum (page2pa (pgnum (page2pa p)) ||| (pteP ||| pteW)) = pgnum (page2pa p) :=
    pgnum_entry (pgnum_lt _) (by decide)
  have hP : Has (pteP ||| pteW) pteP := by decide
  have hU : ¬ Has (pteP ||| pteW) pteU := by decide
  have hW : Has (pteP ||| pteW) pteW := by decide
  have hmask : pteP.toNat < 4096 ∧ pteU.toNat < 4096 ∧ pteW.toNat < 4096 := by decide
  rw [hwWalk_mapped]
  · simp [hpde, hpt, hpte, hpage, has_entry hmask.2.1, has_entry hmask.2.2, hU, hW]
  · rw [hpde, has_entry hmask.1]
    exact hP
  · rw [hpde, hpt, hpte, has_entry hmask.1]
    exact hP

end entryPgdir

section alloc

variable {s t : Kernel} {fl low high : List Nat} {flags : Word} {p : Nat}

/-- A sequence of page_alloc calls. -/
def pageAllocs : List Word → Kern (List (Option Nat))
  | [] => pure []
  | flags :: rest => do
    let p ← pageAlloc flags
    let ps ← pageAllocs rest
    pure (p :: ps)

/-- page_alloc takes the head of the list, whether or not it zeroes the page. -/
theorem pageAlloc_head (hf : s.pageFreeList = some p) (hp : p < s.npages) :
    Returns (pageAlloc flags) s fun o t => o = some p ∧ t.npages = s.npages ∧
      t.pages = (s.setLink p none).pages ∧ t.pageFreeList = (s.pages p).ppLink := by
  have hle : p % 2 ^ 20 ≤ p := Nat.mod_le _ _
  have hk : kaddr (page2pa p) s = .ok (pgnum (page2pa p)) s :=
    kaddr_ok (by rw [pgnum_page2pa_mod]; omega)
  by_cases hz : Has flags allocZero
  · refine ⟨some p, (s.fill (pgnum (page2pa p)) 1024 0#32).take p, ?_, rfl, rfl, rfl, rfl⟩
    simp [pageAlloc, bind_apply, read_apply, update_apply, pure_apply, hf, hz, page2kva, hk, Kernel.take]
  · exact ⟨some p, s.take p, pageAlloc_plain hf hz, rfl, rfl, rfl, rfl⟩

/-- The calls hand out the pages of the list in its order. -/
theorem pageAllocs_returns (requests : List Word)
    (hc : Chain (fun p => (s.pages p).ppLink) s.pageFreeList (low ++ high))
    (hlt : ∀ p ∈ low ++ high, p < s.npages) (hlen : requests.length ≤ low.length) :
    Returns (pageAllocs requests) s fun ps _ => ps = (low.take requests.length).map some := by
  induction requests generalizing s low with
  | nil => exact Returns.of_ok rfl rfl
  | cons flags rest ih =>
    cases low with
    | nil => simp at hlen
    | cons p low =>
      rw [List.cons_append] at hc hlt
      have halloc : Returns (pageAlloc flags) s _ := pageAlloc_head hc.1 (hlt p List.mem_cons_self)
      obtain ⟨o, t, ht, rfl, hn, hpages, hfree⟩ := halloc
      have hoff : ∀ q ∈ low ++ high, q ≠ p := by
        rintro q hq rfl
        exact (List.nodup_cons.mp hc.nodup).1 hq
      have hc' : Chain (fun p => (t.pages p).ppLink) t.pageFreeList (low ++ high) := by
        rw [hfree]
        apply hc.2.congr
        intro q hq
        rw [hpages, Kernel.ppLink_setLink, if_neg (hoff q hq)]
      have hlt' : ∀ q ∈ low ++ high, q < t.npages := fun q hq => hn ▸ hlt q (List.mem_cons_of_mem p hq)
      have hrest := ih hc' hlt' (by simpa using hlen)
      apply Returns.step ht
      apply Returns.bind hrest
      rintro ps u rfl
      exact Returns.of_ok rfl rfl

/-- The part of the state the free list is made of. -/
def Kernel.listPart (s : Kernel) : (Nat → PageInfo) × Option Nat × Nat :=
  (s.pages, s.pageFreeList, s.npages)

theorem keeps_forLink {α ρ : Type} {v : Kernel → ρ} {body : α → Nat → Kern α}
    (h : ∀ acc pp, Keeps v (body acc pp)) (fuel : Nat) (o : Option Nat) (acc : α) :
    Keeps v (forLink body fuel o acc) := by
  induction fuel generalizing o acc with
  | zero =>
    cases o with
    | none => exact keeps_pure acc
    | some pp => exact keeps_stop _
  | succ fuel ih =>
    cases o with
    | none => exact keeps_pure acc
    | some pp => exact (h acc pp).bind fun acc => keeps_read.bind fun s => ih _ _

theorem keeps_forFreeList {α ρ : Type} {v : Kernel → ρ} {body : α → Nat → Kern α}
    (h : ∀ acc pp, Keeps v (body acc pp)) (acc : α) : Keeps v (forFreeList body acc) :=
  keeps_read.bind fun _ => keeps_forLink h _ _ _

theorem soilFreeList_keeps (limit : Nat) : Keeps Kernel.listPart (soilFreeList limit) := by
  refine keeps_forFreeList (fun _ pp => keeps_ite ?_ (keeps_pure _)) _
  have hkva : Keeps Kernel.listPart (page2kva pp) :=
    keeps_read.bind fun _ => (keeps_check _ _).bind fun _ => keeps_pure _
  exact hkva.bind fun _ => keeps_update fun _ => rfl

theorem bootAlloc_keeps (m : Machine) (n : Word) : Keeps Kernel.listPart (bootAlloc m n) := by
  intro s va t h
  rw [(bootAlloc_frame h).2.2]
  rfl

theorem countFreePages_keeps (first : Word) : Keeps Kernel.listPart (countFreePages first) := by
  refine keeps_forFreeList (fun n pp => keeps_read.bind fun s => ?_) _
  refine (keeps_check _ _).bind fun _ => (keeps_check _ _).bind fun _ =>
    (keeps_check _ _).bind fun _ => (keeps_check _ _).bind fun _ => (keeps_check _ _).bind fun _ =>
    keeps_ite (keeps_pure _) ?_
  exact Keeps.bind (keeps_read.bind fun _ => (keeps_check _ _).bind fun _ => keeps_pure _)
    fun _ => (keeps_check _ _).bind fun _ => keeps_pure _

/-- The pages of the list below 4 MB, and the others, each group in the list's order. -/
def lowPages (fl : List Nat) : List Nat := fl.filter fun p => pdx (page2pa p) = 0

def highPages (fl : List Nat) : List Nat := fl.filter fun p => pdx (page2pa p) ≠ 0

/-- The free list is `fl` with the pages below 4 MB moved to its front, and page_alloc hands these
out first; entry_pgdir maps them all. -/
def LowFirst (fl : List Nat) (t : Kernel) : Prop :=
  Chain (fun p => (t.pages p).ppLink) t.pageFreeList (lowPages fl ++ highPages fl) ∧
  ∀ requests : List Word, requests.length ≤ (lowPages fl).length →
    Returns (pageAllocs requests) t fun ps _ =>
      ps = ((lowPages fl).take requests.length).map some ∧ ∀ p, some p ∈ ps → EntryMapped p

theorem Sorted.lowFirst (h : Sorted 1 s fl t) (hlt : ∀ p ∈ fl, p < s.npages) : LowFirst fl t := by
  have hlow : lowPages fl = fl.filter (Below 1 ·) := by simp [lowPages, Below]
  have hhigh : highPages fl = fl.filter (!Below 1 ·) := by simp [highPages, Below]
  have hn : t.npages = s.npages := by rw [h.rest]
  have hin : ∀ p ∈ fl.filter (Below 1 ·) ++ fl.filter (!Below 1 ·), p < t.npages := by
    intro p hp
    rw [(List.filter_append_perm (Below 1 ·) fl).mem_iff] at hp
    exact hn ▸ hlt p hp
  rw [LowFirst, hlow, hhigh]
  refine ⟨h.chain, fun requests hlen => ?_⟩
  apply Returns.mono (pageAllocs_returns requests h.chain hin hlen)
  rintro ps u rfl
  refine ⟨rfl, fun p hp => entryMapped_of_below ?_⟩
  obtain ⟨q, hq, hqp⟩ := List.mem_map.mp hp
  obtain rfl := Option.some.inj hqp
  exact of_decide_eq_true (List.mem_filter.mp (List.mem_of_mem_take hq)).2

/-- LowFirst is about the links, the list's head and the number of pages only, so far as these
decide which pages page_alloc hands out. -/
theorem Sorted.congr {u : Kernel} (h : Sorted 1 s fl t) (hu : u.listPart = t.listPart)
    (hlt : ∀ p ∈ fl, p < s.npages) : LowFirst fl u := by
  have hpages : u.pages = t.pages := congrArg Prod.fst hu
  have hhead : u.pageFreeList = t.pageFreeList := congrArg (fun x => x.2.1) hu
  have hn : u.npages = t.npages := congrArg (fun x => x.2.2) hu
  have hn' : t.npages = s.npages := by rw [h.rest]
  have hsorted : Sorted 1 u fl u := by
    refine ⟨rfl, fun _ => rfl, fun _ _ => rfl, ?_⟩
    rw [hpages, hhead]
    exact h.chain
  exact hsorted.lowFirst fun p hp => by rw [hn, hn']; exact hlt p hp

/-- check_page_free_list(1): the rewiring ends and loses no page, and what follows it in the
function leaves the list alone. -/
theorem checkPageFreeList_lowFirst {m : Machine}
    (hc : Chain (fun p => (s.pages p).ppLink) s.pageFreeList fl) (hlt : ∀ p ∈ fl, p < s.npages) :
    Returns (lowPagesFirst 1) s (fun _ t => LowFirst fl t) ∧
      Ensures (checkPageFreeList m true) s fun _ t => LowFirst fl t := by
  have hsorted := lowPagesFirst_sorted hc hlt 1
  refine ⟨hsorted.mono fun _ t ht => ht.lowFirst hlt, ?_⟩
  rintro ⟨⟩ u hrun
  rw [checkPageFreeList] at hrun
  obtain ⟨n, v, hv, hrun⟩ := bind_eq_ok.mp hrun
  obtain ⟨_, w, hcheck, hrun⟩ := bind_eq_ok.mp hrun
  obtain ⟨-, rfl⟩ := check_eq_ok.mp hcheck
  obtain ⟨-, rfl⟩ := check_eq_ok.mp hrun
  rw [tallyFreeList, bind_ok (read_apply s)] at hv
  obtain ⟨_, w, hcheck, hv⟩ := bind_eq_ok.mp hv
  obtain ⟨-, rfl⟩ := check_eq_ok.mp hcheck
  obtain ⟨_, t, hlow, hv⟩ := bind_eq_ok.mp hv
  have hrest := Keeps.bind (soilFreeList_keeps 1) (fun _ => (bootAlloc_keeps m 0#32).bind
    fun first => countFreePages_keeps first) t n v hv
  exact (hsorted.ensures () t hlow).congr hrest hlt

theorem checkPageFreeList_lowFirst_smallMachine :
    Returns (lowPagesFirst 1) (afterPageInit smallMachine fun _ _ => 0) (fun _ t =>
      LowFirst (freePages (page2pa (heapEnd smallMachine)) (detectedPages smallMachine)) t) ∧
    Ensures (checkPageFreeList smallMachine true) (afterPageInit smallMachine fun _ _ => 0)
      fun _ t =>
        LowFirst (freePages (page2pa (heapEnd smallMachine)) (detectedPages smallMachine)) t := by
  have hdone := afterPageInit_done smallMachine fun _ _ => 0
  refine checkPageFreeList_lowFirst hdone.chain fun p hp => ?_
  rw [npages_afterPageInit]
  exact (mem_freePages.mp hp).1

end alloc

end Jos
