import Jos.Kern.EnvTable
import Jos.Kern.EnvSetup
import Jos.Kern.KernelSpace

/-! Runs of the environment calls: the table's invariant, the ids issued, and who may destroy
whom. -/
namespace Jos

open Prog

/-- The environment table in order: the listed slots are the free ones, every other slot has its
id and its directory, and only the current environment runs. -/
structure EnvTable (s : Kernel) (efl : List Nat) : Prop where
  chain : Chain (fun e => (s.envs e).envLink) s.envFreeList efl
  mem_free : ∀ e, e ∈ efl ↔ e < nenv ∧ (s.envs e).envStatus = .free
  live : ∀ e < nenv, e ∉ efl →
    0 < (s.envs e).envId.toInt ∧ envx (s.envs e).envId = e ∧ (s.envs e).envPgdir ≠ none
  running : ∀ e < nenv, (s.envs e).envStatus = .running → s.curenv = some e
  curenv_lt : ∀ c, s.curenv = some c → c < nenv

def Live (s : Kernel) (e : Nat) : Prop := e < nenv ∧ (s.envs e).envStatus ≠ .free

section table

variable {s t : Kernel} {efl : List Nat} {e : Nat}

theorem tablePart_eq (h : t.tablePart = s.tablePart) :
    t.envFreeList = s.envFreeList ∧ t.curenv = s.curenv ∧ ∀ e,
      (t.envs e).envLink = (s.envs e).envLink ∧ (t.envs e).envStatus = (s.envs e).envStatus ∧
      (t.envs e).envId = (s.envs e).envId ∧ (t.envs e).envPgdir = (s.envs e).envPgdir := by
  simp only [Kernel.tablePart, Prod.mk.injEq] at h
  obtain ⟨henvs, hf, hc⟩ := h
  refine ⟨hf, hc, fun e => ?_⟩
  have he := congrFun henvs e
  simp only [Env.mk.injEq] at he
  obtain ⟨-, hlink, hid, -, -, hst, -, hdir⟩ := he
  exact ⟨hlink, hst, hid, hdir⟩

theorem preempt_envs (s : Kernel) (i : Nat) : s.preempt.envs i =
    { s.envs i with
      envStatus := if s.curenv = some i ∧ (s.envs i).envStatus = .running then .runnable
        else (s.envs i).envStatus } := by
  unfold Kernel.preempt
  split
  · next hc => simp [hc]
  · next c hc =>
    by_cases hi : i = c
    · subst hi
      by_cases hr : (s.envs i).envStatus = .running
      · simp [hc, hr, Kernel.setEnv]
      · simp [hc, hr]
    · have hne : ¬ (c = i) := fun h => hi h.symm
      split <;> simp [hc, hne, hi, Kernel.setEnv]

namespace EnvTable

theorem nodup (h : EnvTable s efl) : efl.Nodup := h.chain.nodup

theorem live_iff (h : EnvTable s efl) : Live s e ↔ e < nenv ∧ e ∉ efl := by
  rw [Live, h.mem_free]
  constructor
  · rintro ⟨hlt, hst⟩
    exact ⟨hlt, fun hf => hst hf.2⟩
  · rintro ⟨hlt, hf⟩
    exact ⟨hlt, fun hst => hf ⟨hlt, hst⟩⟩

/-- Saved registers do not matter. -/
theorem congr (h : EnvTable s efl) (ht : t.tablePart = s.tablePart) : EnvTable t efl := by
  obtain ⟨hf, hc, he⟩ := tablePart_eq ht
  refine ⟨?_, ?_, ?_, ?_, ?_⟩
  · rw [hf]
    exact h.chain.congr fun e _ => (he e).1
  · intro e
    rw [(he e).2.1]
    exact h.mem_free e
  · intro e hlt hm
    rw [(he e).2.2.1, (he e).2.2.2]
    exact h.live e hlt hm
  · intro e hlt hr
    rw [hc]
    exact h.running e hlt ((he e).2.1 ▸ hr)
  · rw [hc]
    exact h.curenv_lt

/-- env_alloc takes the head of the list and makes it a live, runnable environment. -/
theorem allocates (h : EnvTable s efl) (ha : Allocates s t e) :
    ∃ efl', efl = e :: efl' ∧ EnvTable t efl' := by
  obtain ⟨hhead, hlist, hcur, x, hx, hlink, hst, hid, hdir, -⟩ := ha
  have hchain := h.chain
  rw [hhead] at hchain
  obtain ⟨efl', rfl, hrest⟩ := Chain.of_some hchain
  have hlt : e < nenv := ((h.mem_free e).mp (by simp)).1
  have hnot : e ∉ efl' := (List.nodup_cons.mp h.nodup).1
  have hother : ∀ i, i ≠ e → t.envs i = s.envs i := fun i hi => by rw [hx, Function.update_of_ne hi]
  have hself : t.envs e = x := by rw [hx, Function.update_self]
  refine ⟨efl', rfl, ?_, ?_, ?_, ?_, ?_⟩
  · rw [hlist]
    refine hrest.congr fun i hi => ?_
    rw [hother i fun he => hnot (he ▸ hi)]
  · intro i
    by_cases hi : i = e
    · subst hi
      simp [hnot, hself, hst]
    · rw [hother i hi, ← h.mem_free i]
      simp [hi]
  · intro i hi hm
    by_cases he : i = e
    · subst he
      rw [hself, hid]
      exact ⟨(nextEnvId_valid hlt).1, (nextEnvId_valid hlt).2, hdir⟩
    · rw [hother i he]
      exact h.live i hi (by simp [he, hm])
  · intro i hi hr
    have he : i ≠ e := by
      rintro rfl
      rw [hself, hst] at hr
      cases hr
    rw [hcur]
    exact h.running i hi (hother i he ▸ hr)
  · rw [hcur]
    exact h.curenv_lt

/-- env_free of a live environment puts its slot at the head of the list. -/
theorem freed (h : EnvTable s efl) (hl : Live s e) (hrun : envFree e s = .ok () t) :
    EnvTable t (e :: efl) := by
  obtain ⟨hlist, hcur, henvs⟩ := envFree_effect hrun
  obtain ⟨hlt, hnot⟩ := h.live_iff.mp hl
  have hother : ∀ i, i ≠ e → t.envs i = s.envs i := fun i hi => by
    rw [henvs, Function.update_of_ne hi]
  refine ⟨?_, ?_, ?_, ?_, ?_⟩
  · have hself : (t.envs e).envLink = s.envFreeList := by rw [henvs, Function.update_self]
    rw [hlist]
    refine Chain.cons hself (h.chain.congr fun i hi => ?_)
    rw [hother i fun he => hnot (he ▸ hi)]
  · intro i
    by_cases hi : i = e
    · subst hi
      simp [henvs, hlt]
    · rw [hother i hi, ← h.mem_free i]
      simp [hi]
  · intro i hi hm
    simp only [List.mem_cons, not_or] at hm
    rw [hother i hm.1]
    exact h.live i hi hm.2
  · intro i hi hr
    have he : i ≠ e := by
      rintro rfl
      simp [henvs] at hr
    rw [hcur]
    exact h.running i hi (hother i he ▸ hr)
  · rw [hcur]
    exact h.curenv_lt

/-- env_run stops the environment that ran before. -/
theorem ran (h : EnvTable s efl) (hl : Live s e) (hrun : envRun e s = .ok () t) : EnvTable t efl := by
  obtain ⟨hlist, hcur, henvs⟩ := envRun_effect hrun
  obtain ⟨hlt, hnot⟩ := h.live_iff.mp hl
  have hstop : ∀ i < nenv, (s.preempt.envs i).envStatus ≠ .running := by
    intro i hi hr
    rw [preempt_envs] at hr
    by_cases hc : s.curenv = some i ∧ (s.envs i).envStatus = .running
    · simp [hc] at hr
    · simp only [hc, if_false] at hr
      exact hc ⟨h.running i hi hr, hr⟩
  have hfree : ∀ i, (s.preempt.envs i).envStatus = .free ↔ (s.envs i).envStatus = .free := by
    intro i
    rw [preempt_envs]
    by_cases hc : s.curenv = some i ∧ (s.envs i).envStatus = .running
    · simp [hc]
    · simp only [hc, if_false]
  have hother : ∀ i, i ≠ e → t.envs i = s.preempt.envs i := fun i hi => by
    rw [henvs, Function.update_of_ne hi]
  refine ⟨?_, ?_, ?_, ?_, ?_⟩
  · rw [hlist]
    refine h.chain.congr fun i hi => ?_
    rw [hother i fun he => hnot (he ▸ hi), preempt_envs]
  · intro i
    by_cases hi : i = e
    · subst hi
      simp [henvs, hnot]
    · rw [hother i hi, hfree, h.mem_free i]
  · intro i hi hm
    have hold := h.live i hi hm
    by_cases he : i = e
    · subst he
      rw [henvs, Function.update_self]
      simp only [preempt_envs]
      exact hold
    · rw [hother i he, preempt_envs]
      exact hold
  · intro i hi hr
    by_cases he : i = e
    · rw [hcur, he]
    · rw [hother i he] at hr
      exact absurd hr (hstop i hi)
  · intro c hc
    rw [hcur] at hc
    cases hc
    exact hlt

end EnvTable

end table

section start

variable {m : Machine} {mem : Nat → Nat → Word} {s t : Kernel} {l : List Nat}

/-- What env_init's loop has done when `n` slots are left. -/
theorem envInitLoop_done (n : Nat) (s : Kernel) (l : List Nat)
    (hchain : Chain (fun e => (s.envs e).envLink) s.envFreeList l) (hl : ∀ e ∈ l, n ≤ e) :
    Chain (fun e => ((envInitLoop n s).envs e).envLink) (envInitLoop n s).envFreeList
        (List.range n ++ l) ∧
      (envInitLoop n s).curenv = s.curenv ∧
      (∀ e, ((envInitLoop n s).envs e).envStatus = (s.envs e).envStatus) ∧
      (∀ e < n, ((envInitLoop n s).envs e).envId = 0) ∧
      ∀ e, n ≤ e → (envInitLoop n s).envs e = s.envs e := by
  induction n generalizing s l with
  | zero => exact ⟨hchain, rfl, fun _ => rfl, fun _ h => absurd h (by omega), fun _ _ => rfl⟩
  | succ n ih =>
    have hnot : n ∉ l := fun hm => absurd (hl n hm) (by omega)
    let s' : Kernel := { s.setEnv n { s.envs n with envId := 0, envLink := s.envFreeList } with
      envFreeList := some n }
    have hself : s'.envs n = { s.envs n with envId := 0, envLink := s.envFreeList } := by
      simp [s', Kernel.setEnv]
    have hother : ∀ e, e ≠ n → s'.envs e = s.envs e := by
      intro e he
      simp [s', Kernel.setEnv, he]
    have hstep : Chain (fun e => (s'.envs e).envLink) s'.envFreeList (n :: l) := by
      refine Chain.cons (by rw [hself]) (hchain.congr fun e he => ?_)
      rw [hother e fun h => hnot (h ▸ he)]
    obtain ⟨hc, hcur, hst, hid, hrest⟩ := ih s' (n :: l) hstep (by
      intro e he
      rcases List.mem_cons.mp he with rfl | he
      · exact le_refl _
      · exact le_trans (Nat.le_succ n) (hl e he))
    have hloop : envInitLoop (n + 1) s = envInitLoop n s' := rfl
    rw [hloop]
    refine ⟨?_, hcur, ?_, ?_, ?_⟩
    · rw [List.range_succ, List.append_assoc]
      exact hc
    · intro e
      rw [hst e]
      by_cases he : e = n
      · rw [he, hself]
      · rw [hother e he]
    · intro e he
      by_cases hen : e = n
      · rw [hen, hrest n (le_refl n), hself]
      · exact hid e (by omega)
    · intro e he
      rw [hrest e (by omega), hother e (by omega)]

theorem envInit_done (h : envInit s = .ok () t) :
    (∃ l, Chain (fun e => (t.envs e).envLink) t.envFreeList l ∧ ∀ e, e ∈ l ↔ e < nenv) ∧
      t.curenv = s.curenv ∧ (∀ e, (t.envs e).envStatus = (s.envs e).envStatus) ∧
      ∀ e < nenv, (t.envs e).envId = 0 := by
  rw [envInit] at h
  generalize nenv = n at h ⊢
  obtain ⟨_, _, hlist, h⟩ := bind_eq_ok.mp h
  obtain ⟨_, u, hloop, h⟩ := bind_eq_ok.mp h
  obtain ⟨_, _, hread, h⟩ := bind_eq_ok.mp h
  obtain ⟨rfl, rfl⟩ := read_eq_ok.mp hread
  obtain rfl := update_eq_ok.mp hlist
  obtain rfl := update_eq_ok.mp hloop
  obtain ⟨hc, hcur, hst, hid, -⟩ := envInitLoop_done n { s with envFreeList := none } [] rfl
    (by simp)
  rw [observes_check _ _ _ _ _ h]
  rw [List.append_nil] at hc
  exact ⟨⟨_, hc, fun _ => List.mem_range⟩, hcur, hst, hid⟩

theorem envInitLoop_rest (n : Nat) (s : Kernel) : envInitLoop n s =
    { s with envs := (envInitLoop n s).envs, envFreeList := (envInitLoop n s).envFreeList } := by
  induction n generalizing s with
  | zero => rfl
  | succ n ih =>
    rw [envInitLoop, ih]
    rfl

theorem envInit_returns (s : Kernel) :
    ∃ t, envInit s = .ok () t ∧ t = { s with envs := t.envs, envFreeList := t.envFreeList } := by
  obtain ⟨n, hn⟩ : ∃ n, nenv = n + 1 := ⟨1023, rfl⟩
  rw [envInit, hn, bind_ok (update_apply _ s), bind_ok (update_apply _ _), bind_ok (read_apply _)]
  generalize hu : envInitLoop (n + 1) { s with envFreeList := none } = u
  obtain ⟨hc, -⟩ := envInitLoop_done (n + 1) { s with envFreeList := none } [] rfl (by simp)
  have hrest := envInitLoop_rest (n + 1) { s with envFreeList := none }
  rw [hu] at hc hrest
  have hhead := hc.head_eq
  rw [List.append_nil, List.range_succ_eq_map, List.head?_cons] at hhead
  refine ⟨u, check_true (by simp [hhead]) u, hrest⟩

/-- mem_init clears the environment table. -/
theorem memInit_envs (h : memInit m (bss mem) = .ok () s) :
    (∀ e, s.envs e = zeroEnv) ∧ s.curenv = none := by
  obtain ⟨fl, hb, -⟩ := memInit_booting h
  have hrest := hb.rest
  unfold Kernel.Paging at hrest
  rw [hrest]
  have hdone := (afterPageInit_done m mem).rest
  rw [Kernel.loadCr3, hdone]
  exact ⟨fun _ => rfl, rfl⟩

/-- env_init lists every slot, with no id issued. -/
theorem envTable_start (hm : memInit m (bss mem) = .ok () s) (hi : envInit s = .ok () t) :
    (∃ efl, EnvTable t efl) ∧ (∀ e < nenv, (t.envs e).envId = 0) ∧
      ∀ e, (t.envs e).envStatus = .free := by
  obtain ⟨hz, hcur⟩ := memInit_envs hm
  obtain ⟨⟨efl, hc, hmem⟩, hcur', hst, hid⟩ := envInit_done hi
  have hfree : ∀ e, (t.envs e).envStatus = .free := by
    intro e
    rw [hst e, hz e]
    rfl
  refine ⟨⟨efl, hc, ?_, ?_, ?_, ?_⟩, hid, hfree⟩
  · intro e
    rw [hmem]
    exact ⟨fun h => ⟨h, hfree e⟩, fun h => h.1⟩
  · intro e he hn
    exact absurd ((hmem e).mpr he) hn
  · intro e _ hr
    rw [hfree e] at hr
    cases hr
  · intro c hc
    rw [hcur', hcur] at hc
    cases hc

end start

/-- The calls that change the environment table. -/
inductive EnvCall where
  | alloc (newenvStore : Option Nat) (parentId : Word)
  | create (binary : Binary) (type : EnvType)
  | run (e : Nat)
  | free (e : Nat)
  | trap (w : Outside) (tf : Trapframe)

namespace EnvCall

def exec : EnvCall → Kern Unit
  | .alloc newenvStore parentId => do
    let _ ← envAlloc newenvStore parentId
  | .create binary type => envCreate binary type
  | .run e => envRun e
  | .free e => envFree e
  | .trap w tf => Jos.trap w tf

/-- env_run and env_free are given live environments, and traps come from user mode. -/
def Legal (s : Kernel) : EnvCall → Prop
  | .alloc _ _ => True
  | .create _ _ => True
  | .run e => Live s e
  | .free e => Live s e
  | .trap _ tf => tf.tfCs &&& 3 = 3

end EnvCall

/-- The ids issued, newest first, once the slots `t` has allocated are recorded. -/
def issue (s t : Kernel) (issued : Nat → List Word) (i : Nat) : List Word :=
  if (s.envs i).envStatus = .free ∧ (t.envs i).envStatus ≠ .free then
    (t.envs i).envId :: issued i
  else
    issued i

/-- The runs of environment calls from env_init on, with the ids each slot was issued. -/
inductive EnvRun (m : Machine) (mem : Nat → Nat → Word) : Kernel → (Nat → List Word) → Prop
  | start {s t : Kernel} : memInit m (bss mem) = .ok () s → envInit s = .ok () t →
      EnvRun m mem t fun _ => []
  | call {s t : Kernel} {issued : Nat → List Word} {c : EnvCall} : EnvRun m mem s issued →
      c.Legal s → c.exec s = .ok () t → EnvRun m mem t (issue s t issued)

/-- The first `n` ids of slot `i`, newest first. -/
def idsOf (i : Nat) : Nat → List Word
  | 0 => []
  | n + 1 => idAt i n :: idsOf i n

/-- A slot keeps the last id it was issued, and the ids come in order. -/
def Issued (s : Kernel) (issued : Nat → List Word) : Prop :=
  ∀ i, (nenv ≤ i → issued i = [] ∧ (s.envs i).envStatus = .free) ∧
    (i < nenv → ∃ n, issued i = idsOf i n ∧ (s.envs i).envId = (idsOf i n).headD 0)

section runs

variable {m : Machine} {mem : Nat → Nat → Word} {s t u : Kernel} {issued : Nat → List Word}
  {efl : List Nat} {e : Nat} {c : EnvCall}

/-- A call that takes no slot issues no id. -/
theorem Issued.same (h : Issued s issued) (hid : ∀ i, (t.envs i).envId = (s.envs i).envId)
    (hst : ∀ i, (s.envs i).envStatus = .free → (t.envs i).envStatus = .free) :
    Issued t (issue s t issued) := by
  have hsame : issue s t issued = issued := by
    funext i
    rw [issue, if_neg fun hi => hi.2 (hst i hi.1)]
  rw [hsame]
  intro i
  rw [hid i]
  exact ⟨fun hi => ⟨((h i).1 hi).1, hst i ((h i).1 hi).2⟩, (h i).2⟩

theorem Issued.allocates (h : Issued s issued) (hlt : e < nenv)
    (hfree : (s.envs e).envStatus = .free) (ha : Allocates s t e) :
    Issued t (issue s t issued) := by
  obtain ⟨-, -, -, x, hx, -, hst, hid, -⟩ := ha
  have hother : ∀ i, i ≠ e → t.envs i = s.envs i := fun i hi => by rw [hx, Function.update_of_ne hi]
  have hself : t.envs e = x := by rw [hx, Function.update_self]
  intro i
  by_cases hi : i = e
  · subst hi
    refine ⟨fun hge => absurd hlt (by omega), fun _ => ?_⟩
    obtain ⟨n, hn, hidn⟩ := (h i).2 hlt
    have hnew : (t.envs i).envId = idAt i n := by
      rw [hself, hid, hidn]
      cases n with
      | zero => exact nextEnvId_zero hlt
      | succ n => exact nextEnvId_idAt hlt
    refine ⟨n + 1, ?_, hnew⟩
    rw [issue, if_pos ⟨hfree, by simp [hself, hst]⟩, hnew, hn]
    rfl
  · have hsame : issue s t issued i = issued i := by
      rw [issue, hother i hi, if_neg fun hc => hc.2 hc.1]
    rw [hsame, hother i hi]
    exact h i

/-- Every call keeps the table in order and the ids in sequence. -/
theorem envCall_step (h : EnvTable s efl) (hi : Issued s issued) (hl : c.Legal s)
    (hrun : c.exec s = .ok () t) : (∃ efl', EnvTable t efl') ∧ Issued t (issue s t issued) := by
  have hran : ∀ {u : Kernel} {e : Nat}, EnvTable u efl → u.tablePart = s.tablePart → Live u e →
      envRun e u = .ok () t → (∃ efl', EnvTable t efl') ∧ Issued t (issue s t issued) := by
    intro u e hu hpart hlive hrun
    obtain ⟨-, -, hsame⟩ := tablePart_eq hpart
    obtain ⟨-, -, henvs⟩ := envRun_effect hrun
    refine ⟨⟨efl, hu.ran hlive hrun⟩, hi.same ?_ ?_⟩
    · intro i
      rw [← (hsame i).2.2.1, henvs]
      by_cases hie : i = e
      · simp [hie, preempt_envs]
      · simp [hie, preempt_envs]
    · intro i hfree
      rw [← (hsame i).2.1] at hfree
      have hie : i ≠ e := by
        rintro rfl
        exact hlive.2 hfree
      rw [henvs, Function.update_of_ne hie, preempt_envs]
      simp [hfree]
  cases c with
  | alloc newenvStore parentId =>
    obtain ⟨⟨r, st'⟩, u, halloc, hpure⟩ := bind_eq_ok.mp hrun
    obtain ⟨-, rfl⟩ := pure_eq_ok.mp hpure
    rcases envAlloc_allocates halloc with ⟨-, rfl, -⟩ | ⟨-, e, -, ha⟩
    · exact ⟨⟨efl, h⟩, hi.same (fun _ => rfl) fun _ hf => hf⟩
    · obtain ⟨efl', rfl, ht⟩ := h.allocates ha
      obtain ⟨hlt, hfree⟩ := (h.mem_free e).mp (by simp)
      exact ⟨⟨efl', ht⟩, hi.allocates hlt hfree ha⟩
  | create binary type =>
    obtain ⟨e, ha⟩ := envCreate_allocates hrun
    obtain ⟨efl', rfl, ht⟩ := h.allocates ha
    obtain ⟨hlt, hfree⟩ := (h.mem_free e).mp (by simp)
    exact ⟨⟨efl', ht⟩, hi.allocates hlt hfree ha⟩
  | run e => exact hran h rfl hl hrun
  | free e =>
    obtain ⟨-, -, henvs⟩ := envFree_effect hrun
    refine ⟨⟨_, h.freed hl hrun⟩, hi.same ?_ ?_⟩
    · intro i
      by_cases hie : i = e
      · simp [henvs, hie]
      · simp [henvs, hie]
    · intro i hfree
      by_cases hie : i = e
      · simp [henvs, hie]
      · simpa [henvs, hie] using hfree
  | trap w tf =>
    obtain ⟨u, c, hpart, hcur, hst, hrun⟩ := trap_effect hrun
    have hu := h.congr hpart
    exact hran hu hpart ⟨hu.curenv_lt c hcur, by rw [hst]; decide⟩ hrun

theorem EnvRun.inv (h : EnvRun m mem s issued) : (∃ efl, EnvTable s efl) ∧ Issued s issued := by
  induction h with
  | start hm hi =>
    obtain ⟨ht, hid, hfree⟩ := envTable_start hm hi
    refine ⟨ht, fun i => ⟨fun _ => ⟨rfl, hfree i⟩, fun hlt => ⟨0, rfl, hid i hlt⟩⟩⟩
  | call hrun hlegal hcall ih =>
    obtain ⟨⟨efl, ht⟩, hi⟩ := ih
    exact envCall_step ht hi hlegal hcall

theorem envRun_returns {d : Nat} (h : (s.envs e).envPgdir = some d) :
    ∃ t, envRun e s = .ok () t ∧ t.cr3 = d := by
  have hd : (s.preempt.envs e).envPgdir = some d := by rw [preempt_envs, h]
  apply Exists.intro
  rw [envRun, bind_ok (update_apply _ s), bind_ok (update_apply _ _), modifyEnv,
    bind_ok (update_apply _ _), modifyEnv, bind_ok (update_apply _ _),
    bind_ok (envPgdirPa_ok (p := d) (by simp [Kernel.setEnv, hd]))]
  exact ⟨rfl, rfl⟩

/-- On the small machine, an environment that has been allocated and run. -/
theorem firstEnv_smallMachine : ∃ s e, ∃ issued : Nat → List Word,
    EnvRun smallMachine (fun _ _ => 0) s issued ∧ s.curenv = some e ∧ Live s e ∧
      issued e = [idAt e 0] := by
  obtain ⟨s₀, h₀⟩ := memInit_smallMachine fun _ _ => 0
  obtain ⟨fl, hb, -⟩ := memInit_booting h₀
  obtain ⟨s₁, h₁, hrest⟩ := envInit_returns s₀
  obtain ⟨⟨efl, ht⟩, hid, hfree⟩ := envTable_start h₀ h₁
  have hfl : fl ≠ [] := by
    have hlen := hb.length roomy_smallMachine
    rintro rfl
    simp at hlen
  have hefl : efl ≠ [] := List.ne_nil_of_mem ((ht.mem_free 0).mpr ⟨by decide, hfree 0⟩)
  obtain ⟨p, fl, rfl⟩ := List.exists_cons_of_ne_nil hfl
  obtain ⟨e, efl, rfl⟩ := List.exists_cons_of_ne_nil hefl
  have hbal : Balanced s₁ (bootLedger smallMachine kernOwn) (p :: fl) := by
    rw [hrest]
    exact hb.dir.balanced.of_eq rfl rfl rfl rfl
  have halloc : envAlloc none 0 s₁ = .ok (0, some e) ((s₁.setupVm e p).fillSlot e 0) :=
    envAlloc_ok ht.chain.head_eq hbal.chain.head_eq (hbal.free_lt (by simp)) hbal.npages_le
  generalize (s₁.setupVm e p).fillSlot e 0 = s₂ at halloc
  have hexec : (EnvCall.alloc none 0).exec s₁ = .ok () s₂ := by
    rw [EnvCall.exec, bind_ok halloc]
    rfl
  have hrun₂ := EnvRun.call (EnvRun.start h₀ h₁) (c := .alloc none 0) trivial hexec
  obtain ⟨hlt, -⟩ := (ht.mem_free e).mp (by simp)
  rcases envAlloc_allocates halloc with ⟨hr, -, -⟩ | ⟨-, e', he', -, -, hcur, x, hx, -, hst, hidx, hdir, -⟩
  · exact absurd hr (by decide)
  cases he'
  have hself : s₂.envs e = x := by rw [hx, Function.update_self]
  have hlive : Live s₂ e := ⟨hlt, by rw [hself, hst]; decide⟩
  obtain ⟨d, hd⟩ := Option.ne_none_iff_exists'.mp hdir
  obtain ⟨s₃, h₃, -⟩ := envRun_returns (s := s₂) (e := e) (d := d) (by rw [hself, hd])
  obtain ⟨-, hcur₃, henvs⟩ := envRun_effect h₃
  refine ⟨s₃, e, _, EnvRun.call hrun₂ (c := .run e) hlive h₃, hcur₃, ⟨hlt, by simp [henvs]⟩, ?_⟩
  have hidnew : (s₂.envs e).envId = idAt e 0 := by rw [hself, hidx, hid e hlt, nextEnvId_zero hlt]
  rw [issue, if_neg fun h => hlive.2 h.1, issue, if_pos ⟨hfree e, hlive.2⟩, hidnew]

theorem mem_idsOf {i n : Nat} {id : Word} (h : id ∈ idsOf i n) : ∃ k < n, id = idAt i k := by
  induction n with
  | zero => cases h
  | succ n ih =>
    rcases List.mem_cons.mp h with rfl | h
    · exact ⟨n, Nat.lt_succ_self n, rfl⟩
    · obtain ⟨k, hk, rfl⟩ := ih h
      exact ⟨k, Nat.lt_succ_of_lt hk, rfl⟩

/-- The id with `newer.length` later ones. -/
theorem idsOf_split {i n : Nat} {id : Word} {newer older : List Word}
    (h : idsOf i n = newer ++ id :: older) :
    ∃ k, n = k + newer.length + 1 ∧ id = idAt i k := by
  induction newer generalizing n with
  | nil =>
    cases n with
    | zero => simp [idsOf] at h
    | succ n =>
      simp only [idsOf, List.nil_append, List.cons.injEq] at h
      exact ⟨n, rfl, h.1.symm⟩
  | cons a newer ih =>
    cases n with
    | zero => simp [idsOf] at h
    | succ n =>
      simp only [idsOf, List.cons_append, List.cons.injEq] at h
      obtain ⟨k, rfl, rfl⟩ := ih h.2
      exact ⟨k, by simp; omega, rfl⟩

/-- An id resolves to its own incarnation while that lives, and to nothing after it, for as long
as the slot has been allocated fewer than 2^19 - 1 times since. -/
theorem envRun_staleIds (h : EnvRun m mem s issued) :
    (∀ i, ∀ id ∈ issued i, i < nenv ∧ 0 < id.toInt ∧ envx id = i) ∧
    ∀ i newer id older, issued i = newer ++ id :: older → newer.length < 2 ^ 19 - 1 →
      envid2env id false s = .ok (if newer = [] ∧ (s.envs i).envStatus ≠ .free then (0, some i)
        else (-eBadEnv, none)) s := by
  obtain ⟨-, hi⟩ := h.inv
  have hslot : ∀ i, ∀ id ∈ issued i, i < nenv := by
    intro i id hid
    by_contra hge
    rw [((hi i).1 (by omega)).1] at hid
    cases hid
  constructor
  · intro i id hid
    have hlt := hslot i id hid
    obtain ⟨n, hn, -⟩ := (hi i).2 hlt
    rw [hn] at hid
    obtain ⟨k, -, rfl⟩ := mem_idsOf hid
    exact ⟨hlt, idAt_valid hlt⟩
  · intro i newer id older hsplit hlen
    have hlt := hslot i id (by simp [hsplit])
    obtain ⟨n, hn, hcur⟩ := (hi i).2 hlt
    rw [hn] at hsplit
    obtain ⟨k, rfl, rfl⟩ := idsOf_split hsplit
    obtain ⟨hpos, hx⟩ := idAt_valid (n := k) hlt
    have hne : idAt i k ≠ 0 := by
      intro h0
      rw [h0] at hpos
      exact absurd hpos (by decide)
    -- the slot's current id is the newest one issued
    have hnow : (s.envs i).envId = idAt i (k + newer.length) := hcur
    have hsame : (s.envs i).envId ≠ idAt i k ↔ newer ≠ [] := by
      rw [hnow]
      constructor
      · rintro hid rfl
        exact hid rfl
      · intro hnew
        have hpos : 0 < newer.length := List.length_pos_iff.mpr hnew
        exact Ne.symm (idAt_ne hlt (by omega) (by omega))
    rw [envid2env, bind_ok (read_apply s), Prog.ite_apply, if_neg hne]
    simp only [hx, Prog.ite_apply, hsame, Bool.false_eq_true, false_and, if_false]
    by_cases hf : (s.envs i).envStatus = .free
    · simp [hf, pure_apply]
    · by_cases hnew : newer = []
      · simp [hf, hnew, pure_apply]
      · simp [hf, hnew, pure_apply]

theorem envRun_staleIds_smallMachine : ∃ s e, Live s e ∧
    envid2env (idAt e 0) false s = .ok (0, some e) s := by
  obtain ⟨s, e, issued, hrun, -, hlive, hids⟩ := firstEnv_smallMachine
  have h := (envRun_staleIds hrun).2 e [] (idAt e 0) [] hids (by decide)
  rw [if_pos ⟨rfl, hlive.2⟩] at h
  exact ⟨s, e, hlive, h⟩

/-- The environments `c` may destroy by naming `envid`: itself and its children. -/
def Permitted (s : Kernel) (c : Nat) (envid : Word) (e : Nat) : Prop :=
  (e = c ∧ (envid = 0 ∨ (s.envs c).envId = envid)) ∨
    (Live s e ∧ (s.envs e).envId = envid ∧ (s.envs e).envParentId = (s.envs c).envId)

/-- A live environment is found by its id alone. -/
theorem EnvTable.envx_eq (h : EnvTable s efl) (hl : Live s e) : envx (s.envs e).envId = e := by
  obtain ⟨hlt, hm⟩ := h.live_iff.mp hl
  exact (h.live e hlt hm).2.1

/-- What sys_env_destroy comes to, from the table alone. -/
theorem EnvTable.sysEnvDestroy_eq {cur : Nat} (ht : EnvTable s efl) (hcur : s.curenv = some cur)
    (hl : Live s cur) (envid : Word) :
    (∃ e, Permitted s cur envid e ∧
      sysEnvDestroy envid s = (do envDestroy e; pure 0 : Kern Int) s) ∨
    ((¬ ∃ e, Permitted s cur envid e) ∧ sysEnvDestroy envid s = .ok (-eBadEnv) s) := by
  have hlt := envx_lt envid
  have hgo : ∀ e, envid2env envid true s = .ok (0, some e) s →
      sysEnvDestroy envid s = (do envDestroy e; pure 0 : Kern Int) s := by
    intro e hfound
    rw [sysEnvDestroy, bind_ok hfound]
    rfl
  have hbad : envid2env envid true s = .ok (-eBadEnv, none) s →
      sysEnvDestroy envid s = .ok (-eBadEnv) s := by
    intro hfound
    rw [sysEnvDestroy, bind_ok hfound]
    rfl
  by_cases h0 : envid = 0
  · refine Or.inl ⟨cur, Or.inl ⟨rfl, Or.inl h0⟩, hgo cur ?_⟩
    rw [envid2env, bind_ok (read_apply s), Prog.ite_apply, if_pos h0, hcur]
    rfl
  · have hrun : envid2env envid true s =
        if (s.envs (envx envid)).envStatus = .free ∨ (s.envs (envx envid)).envId ≠ envid then
          .ok (-eBadEnv, none) s
        else if MayManage s (envx envid) then .ok (0, some (envx envid)) s
        else .ok (-eBadEnv, none) s := by
      rw [envid2env, bind_ok (read_apply s), Prog.ite_apply, if_neg h0]
      simp only [Prog.ite_apply, hcur, true_and, reduceCtorEq, and_false, if_false, ite_not]
      rfl
    by_cases hst : (s.envs (envx envid)).envStatus = .free ∨ (s.envs (envx envid)).envId ≠ envid
    · rw [if_pos hst] at hrun
      refine Or.inr ⟨?_, hbad hrun⟩
      -- a permitted environment would be live under this very id
      have hnone : ∀ e, Live s e → (s.envs e).envId ≠ envid := by
        rintro e he rfl
        rw [ht.envx_eq he] at hst
        exact hst.elim he.2 fun hne => hne rfl
      rintro ⟨e, ⟨-, hid⟩ | ⟨he, hid, -⟩⟩
      · exact hid.elim h0 (hnone cur hl)
      · exact hnone e he hid
    · rw [if_neg hst] at hrun
      obtain ⟨hlive, hid⟩ := not_or.mp hst
      rw [not_not] at hid
      by_cases hm : MayManage s (envx envid)
      · rw [if_pos hm] at hrun
        refine Or.inl ⟨envx envid, ?_, hgo _ hrun⟩
        rcases hm with hself | ⟨c, hc, hparent⟩
        · obtain rfl : cur = envx envid := by
            rw [hcur] at hself
            exact Option.some.inj hself
          exact Or.inl ⟨rfl, Or.inr hid⟩
        · obtain rfl : cur = c := by
            rw [hcur] at hc
            exact Option.some.inj hc
          exact Or.inr ⟨⟨hlt, hlive⟩, hid, hparent⟩
      · rw [if_neg hm] at hrun
        refine Or.inr ⟨?_, hbad hrun⟩
        rintro ⟨e, ⟨rfl, hid'⟩ | ⟨he, rfl, hparent⟩⟩
        · have hx : envx envid = e := by
            rw [← hid'.resolve_left h0]
            exact ht.envx_eq hl
          exact hm (Or.inl (hx ▸ hcur))
        · rw [ht.envx_eq he] at hm
          exact hm (Or.inr ⟨cur, hcur, hparent⟩)

/-- sys_env_destroy destroys the current environment or a child of its own, and otherwise fails
and changes nothing. -/
theorem envRun_destroyPermitted {cur : Nat} (h : EnvRun m mem s issued) (hcur : s.curenv = some cur)
    (hl : Live s cur) (envid : Word) : envx envid < nenv ∧
      ((∃ e, Permitted s cur envid e ∧
          sysEnvDestroy envid s = (do envDestroy e; pure 0 : Kern Int) s) ∨
        ((¬ ∃ e, Permitted s cur envid e) ∧ sysEnvDestroy envid s = .ok (-eBadEnv) s)) := by
  obtain ⟨⟨efl, ht⟩, -⟩ := h.inv
  exact ⟨envx_lt envid, ht.sysEnvDestroy_eq hcur hl envid⟩

theorem envRun_destroyPermitted_smallMachine : ∃ s cur, s.curenv = some cur ∧ Live s cur ∧
    ∀ envid, envx envid < nenv ∧ ((∃ e, Permitted s cur envid e ∧
          sysEnvDestroy envid s = (do envDestroy e; pure 0 : Kern Int) s) ∨
        ((¬ ∃ e, Permitted s cur envid e) ∧ sysEnvDestroy envid s = .ok (-eBadEnv) s)) := by
  obtain ⟨s, e, issued, hrun, hcur, hlive, -⟩ := firstEnv_smallMachine
  exact ⟨s, e, hcur, hlive, envRun_destroyPermitted hrun hcur hlive⟩

end runs

end Jos
