import Mathlib.Logic.Function.Iterate
import MiniTcg.Ipc.Refinement

/-!
# Logins at the same time

`ipc_alloc_session` in its own steps: it tests `valid` slot by slot, sets it in
the first free one, and writes the id. Any number of workers take these steps in
any order, between whole saves, loads and heartbeats. Run alone, the steps are the
atomic call; run together, they keep the slots of the logins apart as long as no
test finds a slot free that another worker has found free and not yet marked.
-/
namespace MiniTcg.Ipc

open MiniTcg.Game

/-- The next step of a call of `ipc_alloc_session`. -/
inductive LoginPc
  | test (i : ℕ)
  | claim (i : ℕ)
  | write (i : ℕ)
  | done (i : ℕ)
  | full
  deriving DecidableEq, Repr

/-- A call of `ipc_alloc_session` with what it reads from its environment. -/
structure Login where
  env : AllocEnv
  pc : LoginPc
  deriving DecidableEq, Repr

/-- One step of the call. -/
def Login.advance (l : Login) (s : Store) : Login × Store :=
  match l.pc with
  | .test i =>
    match s.sessions[i]? with
    | none => ({ l with pc := .full }, s)
    | some e => ({ l with pc := if e.valid then .test (i + 1) else .claim i }, s)
  | .claim i => ({ l with pc := .write i }, s.modify i fun e => { e with valid := true })
  | .write i =>
    ({ l with pc := .done i },
      s.modify i fun e => { e with sessionId := allocId l.env i, lastSeen := l.env.seen })
  | .done _ | .full => (l, s)

/-- The value the call returned. -/
def Login.returned (l : Login) : Option UInt64 :=
  match l.pc with
  | .done i => some (allocId l.env i)
  | .full => some 0
  | _ => none

structure Race where
  store : Store
  logins : List Login

inductive RaceMove
  | start (env : AllocEnv)
  | advance (k : ℕ)
  | save (sid : UInt64) (st : State) (hand : Hand) (now : UInt64)
  | load (sid : UInt64) (st : State) (hand : Hand) (now : UInt64)
  | touch (sid : UInt64) (now : UInt64)

def Race.step (r : Race) : RaceMove → Race
  | .start env => { r with logins := r.logins ++ [⟨env, .test 0⟩] }
  | .advance k =>
    match r.logins[k]? with
    | none => r
    | some l => ⟨(l.advance r.store).2, r.logins.set k (l.advance r.store).1⟩
  | .save sid st hand now => { r with store := (ipcSaveSession r.store sid st hand now).1 }
  | .load sid st hand now => { r with store := (ipcLoadSession r.store sid st hand now).1 }
  | .touch sid now => { r with store := (ipcTouchSession r.store sid now).1 }

def Race.zero : Race := ⟨Store.zero, []⟩

/-! ### Alone -/

section Alone
variable {s : Store} {env : AllocEnv} {i : ℕ}

theorem advance_taken {e : SessionEntry} (hi : s.sessions[i]? = some e) (hv : e.valid = true) :
    Login.advance ⟨env, .test i⟩ s = (⟨env, .test (i + 1)⟩, s) := by
  simp only [Login.advance, hi, hv, if_true]

theorem advance_free {e : SessionEntry} (hi : s.sessions[i]? = some e) (hv : e.valid = false) :
    Login.advance ⟨env, .test i⟩ s = (⟨env, .claim i⟩, s) := by
  simp [Login.advance, hi, hv]

/-- The tests pass over the taken slots. -/
theorem advance_tests (env : AllocEnv) (n : ℕ) (h : ∀ j < n, ∃ e, s.sessions[j]? = some e ∧ e.valid = true) :
    (fun q : Login × Store => q.1.advance q.2)^[n] (⟨env, .test 0⟩, s) = (⟨env, .test n⟩, s) := by
  induction n with
  | zero => rfl
  | succ n ih =>
    obtain ⟨e, he, hv⟩ := h n (Nat.lt_succ_self n)
    rw [Function.iterate_succ_apply', ih fun j hj => h j (Nat.lt_succ_of_lt hj)]
    exact advance_taken he hv

/-- A call that is not interrupted does what the atomic call does. -/
theorem advance_alone (s : Store) (env : AllocEnv) :
    ∃ n l, (fun q : Login × Store => q.1.advance q.2)^[n] (⟨env, .test 0⟩, s) =
      (l, (ipcAllocSession s env).1) ∧ l.returned = some (ipcAllocSession s env).2 := by
  cases hf : s.sessions.findIdx? (fun e => !e.valid) with
  | none =>
    rw [List.findIdx?_eq_none_iff] at hf
    have htests := advance_tests env s.sessions.length fun j hj =>
      ⟨s.sessions[j], List.getElem?_eq_getElem hj, by simpa using hf _ (List.getElem_mem hj)⟩
    refine ⟨s.sessions.length + 1, ⟨env, .full⟩, ?_, ?_⟩
    · rw [Function.iterate_succ_apply', htests]
      simp [Login.advance, ipcAllocSession, List.findIdx?_eq_none_iff.mpr hf]
    · simp [Login.returned, ipcAllocSession, List.findIdx?_eq_none_iff.mpr hf]
  | some i =>
    obtain ⟨hi, hfree, hbefore⟩ := List.findIdx?_eq_some_iff_getElem.mp hf
    have htests := advance_tests env i fun j hj =>
      ⟨s.sessions[j], List.getElem?_eq_getElem (by omega), by simpa using hbefore j hj⟩
    refine ⟨i + 3, ⟨env, .done i⟩, ?_, ?_⟩
    · rw [Function.iterate_succ_apply', Function.iterate_succ_apply', Function.iterate_succ_apply',
        htests]
      simp only
      rw [advance_free (List.getElem?_eq_getElem hi) (by simpa using hfree)]
      simp [Login.advance, ipcAllocSession, hf, Store.modify, List.modify_modify_eq,
        Function.comp_def]
    · simp [Login.returned, ipcAllocSession, hf]

end Alone

/-! ### Together -/

/-- The slot a call has found free. -/
def LoginPc.slot? : LoginPc → Option ℕ
  | .claim i | .write i | .done i => some i
  | .test _ | .full => none

/-- The `valid` fields and the `session_id` fields of the slots. -/
def Store.flags (s : Store) : List Bool := s.sessions.map SessionEntry.valid
def Store.names (s : Store) : List UInt64 := s.sessions.map SessionEntry.sessionId

/-- The free slot a call is about to find. -/
def Race.finds (r : Race) (k : ℕ) : Option ℕ :=
  match r.logins[k]? with
  | some ⟨_, .test i⟩ => if r.store.flags[i]? = some false then some i else none
  | _ => none

/-- The step does not find a slot free that another call has found free and has
not marked yet. -/
def Exclusive (r : Race) : RaceMove → Prop
  | .advance k => ∀ i ∈ (r.finds k).toList, ∀ l ∈ r.logins, l.pc ≠ .claim i
  | _ => True

instance (r : Race) : (m : RaceMove) → Decidable (Exclusive r m)
  | .advance k => List.decidableBAll (fun i => ∀ l ∈ r.logins, l.pc ≠ .claim i) (r.finds k).toList
  | .start _ => isTrue trivial
  | .save .. => isTrue trivial
  | .load .. => isTrue trivial
  | .touch .. => isTrue trivial

theorem onSlot_fields (s : Store) (sid : UInt64) {f : SessionEntry → SessionEntry} (hf : Keeps f) :
    (s.onSlot sid f).1.flags = s.flags ∧ (s.onSlot sid f).1.names = s.names := by
  unfold Store.onSlot Store.flags Store.names
  split
  · rename_i l h
    exact ⟨Scan.updateFirst_keys _ h fun e => (hf e).2, Scan.updateFirst_keys _ h fun e => (hf e).1⟩
  · exact ⟨rfl, rfl⟩

/-- Every slot is held by one call; a marked slot is valid, and a named one
carries the id of the call that has it. -/
structure RaceInv (r : Race) : Prop where
  apart : ∀ (k j : ℕ) (a b : Login) (i : ℕ), r.logins[k]? = some a → r.logins[j]? = some b →
    a.pc.slot? = some i → b.pc.slot? = some i → k = j
  inside : ∀ a ∈ r.logins, ∀ i, a.pc.slot? = some i → i < maxSessions
  marked : ∀ a ∈ r.logins, ∀ i, a.pc = .write i ∨ a.pc = .done i → r.store.flags[i]? = some true
  named : ∀ a ∈ r.logins, ∀ i, a.pc = .done i → r.store.names[i]? = some (allocId a.env i)
  owned : ∀ (j : ℕ) (x : UInt64), r.store.names[j]? = some x → x ≠ 0 →
    ∃ a ∈ r.logins, a.pc = .done j ∧ allocId a.env j = x

theorem raceInv_zero : RaceInv Race.zero := by
  refine ⟨fun k j a b i ha => ?_, fun a ha => ?_, fun a ha => ?_, fun a ha => ?_, fun j x hx hz => ?_⟩
  · cases ha
  · exact absurd ha List.not_mem_nil
  · exact absurd ha List.not_mem_nil
  · exact absurd ha List.not_mem_nil
  · have hmem := List.mem_of_getElem? hx
    obtain ⟨e, he, rfl⟩ := List.mem_map.mp hmem
    rw [List.eq_of_mem_replicate he] at hz
    exact absurd rfl hz

section Step
variable {r : Race} {k : ℕ} {l l' : Login}

/-- The slots stay apart when a call moves on with the slot it has, or takes one
that no call has. -/
theorem RaceInv.apart_set (h : RaceInv r) (hk : r.logins[k]? = some l)
    (hl : ∀ i, l'.pc.slot? = some i →
      l.pc.slot? = some i ∨ ∀ b ∈ r.logins, b.pc.slot? ≠ some i) :
    ∀ (n j : ℕ) (a b : Login) (i : ℕ), (r.logins.set k l')[n]? = some a →
      (r.logins.set k l')[j]? = some b → a.pc.slot? = some i → b.pc.slot? = some i → n = j := by
  have hother : ∀ (j : ℕ) (b : Login) (i : ℕ), r.logins[j]? = some b → l'.pc.slot? = some i →
      b.pc.slot? = some i → k = j := by
    intro j b i hj hs hb
    rcases hl i hs with hold | hnone
    · exact h.apart k j l b i hk hj hold hb
    · exact absurd hb (hnone b (List.mem_of_getElem? hj))
  intro n j a b i hn hj ha hb
  rcases Scan.get_set hn with ⟨rfl, rfl⟩ | ⟨_, hn'⟩
  · rcases Scan.get_set hj with ⟨rfl, _⟩ | ⟨_, hj'⟩
    · rfl
    · exact hother j b i hj' ha hb
  · rcases Scan.get_set hj with ⟨rfl, rfl⟩ | ⟨_, hj'⟩
    · exact (hother n a i hn' hb ha).symm
    · exact h.apart n j a b i hn' hj' ha hb

/-- The owner of a session stays when an unfinished call moves on. -/
theorem RaceInv.owned_set (h : RaceInv r) (hk : r.logins[k]? = some l) (hold : ∀ i, l.pc ≠ .done i)
    (l' : Login) {j : ℕ} {x : UInt64} (hx : r.store.names[j]? = some x) (hz : x ≠ 0) :
    ∃ a ∈ r.logins.set k l', a.pc = .done j ∧ allocId a.env j = x := by
  obtain ⟨a, ha, hd, hid⟩ := h.owned j x hx hz
  refine ⟨a, Scan.mem_set_of_ne hk ha ?_ l', hd, hid⟩
  rintro rfl
  exact hold j hd

/-- A step that leaves the store and the named slots. -/
theorem RaceInv.move (h : RaceInv r) (hk : r.logins[k]? = some l)
    (hold : ∀ i, l.pc ≠ .done i) (hpc : ∀ i, l'.pc ≠ .write i ∧ l'.pc ≠ .done i)
    (hslot : ∀ i, l'.pc.slot? = some i → i < maxSessions ∧ ∀ b ∈ r.logins, b.pc.slot? ≠ some i) :
    RaceInv { r with logins := r.logins.set k l' } := by
  refine ⟨h.apart_set hk fun i hi => Or.inr (hslot i hi).2, Scan.set_forall h.inside ?_,
    Scan.set_forall h.marked ?_, Scan.set_forall h.named ?_,
    fun j x hx hz => h.owned_set hk hold l' hx hz⟩
  · exact fun i hi => (hslot i hi).1
  · rintro i (hw | hd)
    · exact absurd hw (hpc i).1
    · exact absurd hd (hpc i).2
  · exact fun i hd => absurd hd (hpc i).2

theorem RaceInv.claim (h : RaceInv r) (hk : r.logins[k]? = some l) {i : ℕ} (hpc : l.pc = .claim i) :
    RaceInv ⟨r.store.modify i fun e => { e with valid := true },
      r.logins.set k { l with pc := .write i }⟩ := by
  have hin : i < maxSessions := h.inside l (List.mem_of_getElem? hk) i (by rw [hpc]; rfl)
  have hold : ∀ j, l.pc ≠ .done j := by
    intro j hd
    rw [hpc] at hd
    cases hd
  have hflags : (r.store.modify i fun e => { e with valid := true }).flags =
      r.store.flags.set i true :=
    Scan.map_modify_set SessionEntry.valid (by intro e; rfl) i r.store.sessions
  have hnames : (r.store.modify i fun e => { e with valid := true }).names = r.store.names :=
    Scan.map_modify_keep SessionEntry.sessionId (by intro e; rfl) i r.store.sessions
  have hlen : i < r.store.flags.length := by
    rw [Store.flags, List.length_map, r.store.size]
    exact hin
  refine ⟨h.apart_set hk fun j hj => Or.inl ?_, Scan.set_forall h.inside ?_, ?_, ?_, ?_⟩
  · rw [hpc]
    exact hj
  · intro j hj
    cases hj
    exact hin
  · rw [hflags]
    refine Scan.set_forall (fun a ha j hj => ?_) fun j hj => ?_
    · by_cases hij : i = j
      · rw [← hij, List.getElem?_set_self hlen]
      · rw [List.getElem?_set_ne hij]
        exact h.marked a ha j hj
    · rcases hj with hw | hd
      · cases hw
        rw [List.getElem?_set_self hlen]
      · cases hd
  · rw [hnames]
    exact Scan.set_forall h.named fun j hd => nomatch hd
  · rw [hnames]
    exact fun j x hx hz => h.owned_set hk hold _ hx hz

theorem RaceInv.write (h : RaceInv r) (hk : r.logins[k]? = some l) {i : ℕ} (hpc : l.pc = .write i) :
    RaceInv ⟨r.store.modify i fun e =>
        { e with sessionId := allocId l.env i, lastSeen := l.env.seen },
      r.logins.set k { l with pc := .done i }⟩ := by
  have hl : l ∈ r.logins := List.mem_of_getElem? hk
  have hin : i < maxSessions := h.inside l hl i (by rw [hpc]; rfl)
  have hold : ∀ j, l.pc ≠ .done j := by
    intro j hd
    rw [hpc] at hd
    cases hd
  have hflags : (r.store.modify i fun e =>
      { e with sessionId := allocId l.env i, lastSeen := l.env.seen }).flags = r.store.flags :=
    Scan.map_modify_keep SessionEntry.valid (by intro e; rfl) i r.store.sessions
  have hnames : (r.store.modify i fun e =>
      { e with sessionId := allocId l.env i, lastSeen := l.env.seen }).names =
        r.store.names.set i (allocId l.env i) :=
    Scan.map_modify_set SessionEntry.sessionId (by intro e; rfl) i r.store.sessions
  have hlen : i < r.store.names.length := by
    rw [Store.names, List.length_map, r.store.size]
    exact hin
  refine ⟨h.apart_set hk fun j hj => Or.inl ?_, Scan.set_forall h.inside ?_, ?_, ?_, ?_⟩
  · rw [hpc]
    exact hj
  · intro j hj
    cases hj
    exact hin
  · rw [hflags]
    refine Scan.set_forall h.marked fun j hj => ?_
    rcases hj with hw | hd
    · cases hw
    · cases hd
      exact h.marked l hl i (Or.inl hpc)
  · rw [hnames]
    refine Scan.set_forall (fun a ha j hd => ?_) fun j hd => ?_
    · -- a finished call has another slot
      obtain ⟨n, hn⟩ := List.mem_iff_getElem?.mp ha
      have hij : i ≠ j := by
        rintro rfl
        have hkn := h.apart k n l a i hk hn (by rw [hpc]; rfl) (by rw [hd]; rfl)
        rw [← hkn, hk] at hn
        rw [← Option.some.inj hn, hpc] at hd
        cases hd
      rw [List.getElem?_set_ne hij]
      exact h.named a ha j hd
    · cases hd
      rw [List.getElem?_set_self hlen]
  · rw [hnames]
    intro j x hx hz
    by_cases hij : i = j
    · subst hij
      rw [List.getElem?_set_self hlen] at hx
      refine ⟨{ l with pc := .done i }, List.mem_of_getElem? (i := k) ?_, rfl, Option.some.inj hx⟩
      rw [List.getElem?_set_self (List.getElem?_eq_some_iff.mp hk).1]
    · rw [List.getElem?_set_ne hij] at hx
      exact h.owned_set hk hold _ hx hz

theorem RaceInv.test (h : RaceInv r) {env : AllocEnv} {i : ℕ}
    (hk : r.logins[k]? = some ⟨env, .test i⟩) (hx : Exclusive r (.advance k)) :
    RaceInv (r.step (.advance k)) := by
  have hold : ∀ j, (⟨env, .test i⟩ : Login).pc ≠ .done j := fun j hd => nomatch hd
  simp only [Race.step, hk, Login.advance]
  cases he : r.store.sessions[i]? with
  | none =>
    refine h.move hk hold (fun j => ⟨nofun, nofun⟩) fun j hj => ?_
    cases hj
  | some e =>
    simp only
    by_cases hv : e.valid = true
    · rw [if_pos hv]
      refine h.move hk hold (fun j => ⟨nofun, nofun⟩) fun j hj => ?_
      cases hj
    · -- a free slot: whoever has it has marked it, or is excluded
      rw [if_neg hv]
      have hflag : r.store.flags[i]? = some false := by
        rw [Store.flags, List.getElem?_map, he, Option.map_some]
        exact congrArg some (Bool.not_eq_true _ ▸ hv)
      have hfinds : r.finds k = some i := by
        simp only [Race.finds, hk, hflag, if_true]
      refine h.move hk hold (fun j => ⟨nofun, nofun⟩) fun j hj => ?_
      cases hj
      refine ⟨?_, fun b hb hs => ?_⟩
      · rw [← r.store.size]
        exact (List.getElem?_eq_some_iff.mp he).1
      · have hclaim : b.pc ≠ .claim i := hx i (by rw [hfinds]; exact List.mem_singleton.mpr rfl) b hb
        have hmark : b.pc = .write i ∨ b.pc = .done i := by
          cases hpc : b.pc with
          | claim j =>
            rw [hpc] at hs hclaim
            cases hs
            exact absurd rfl hclaim
          | write j =>
            rw [hpc] at hs
            cases hs
            exact Or.inl rfl
          | done j =>
            rw [hpc] at hs
            cases hs
            exact Or.inr rfl
          | test j =>
            rw [hpc] at hs
            cases hs
          | full =>
            rw [hpc] at hs
            cases hs
        have htrue := h.marked b hb i hmark
        rw [hflag] at htrue
        cases htrue

theorem RaceInv.call (h : RaceInv r) (sid : UInt64) {f : SessionEntry → SessionEntry}
    (hf : Keeps f) : RaceInv { r with store := (r.store.onSlot sid f).1 } := by
  obtain ⟨hflags, hnames⟩ := onSlot_fields r.store sid hf
  refine ⟨h.apart, h.inside, ?_, ?_, ?_⟩
  · show ∀ a ∈ r.logins, ∀ i, _ → (r.store.onSlot sid f).1.flags[i]? = some true
    rw [hflags]
    exact h.marked
  · show ∀ a ∈ r.logins, ∀ i, _ → (r.store.onSlot sid f).1.names[i]? = _
    rw [hnames]
    exact h.named
  · show ∀ j x, (r.store.onSlot sid f).1.names[j]? = some x → _
    rw [hnames]
    exact h.owned

theorem raceInv_step (m : RaceMove) (hx : Exclusive r m) (h : RaceInv r) : RaceInv (r.step m) := by
  cases m with
  | start env =>
    have hget : ∀ {n : ℕ} {a : Login} {i : ℕ}, (r.logins ++ [⟨env, .test 0⟩])[n]? = some a →
        a.pc.slot? = some i → r.logins[n]? = some a := by
      intro n a i hn hs
      by_cases hlt : n < r.logins.length
      · rwa [List.getElem?_append_left hlt] at hn
      · rw [List.getElem?_append_right (by omega)] at hn
        obtain rfl := List.mem_singleton.mp (List.mem_of_getElem? hn)
        cases hs
    have hall : ∀ {P : Login → Prop}, (∀ a ∈ r.logins, P a) → P ⟨env, .test 0⟩ →
        ∀ a ∈ r.logins ++ [⟨env, .test 0⟩], P a := fun hr hn =>
      List.forall_mem_append.mpr ⟨hr, List.forall_mem_singleton.mpr hn⟩
    refine ⟨?_, hall h.inside nofun, hall h.marked ?_, hall h.named nofun, ?_⟩
    · exact fun n j a b i hn hj ha hb => h.apart n j a b i (hget hn ha) (hget hj hb) ha hb
    · rintro i (hw | hd)
      · cases hw
      · cases hd
    · intro j x hx hz
      obtain ⟨a, ha, hrest⟩ := h.owned j x hx hz
      exact ⟨a, List.mem_append_left _ ha, hrest⟩
  | advance k =>
    cases hk : r.logins[k]? with
    | none =>
      simp only [Race.step, hk]
      exact h
    | some l =>
      obtain ⟨env, pc⟩ := l
      cases pc with
      | test i => exact h.test hk hx
      | claim i =>
        simp only [Race.step, hk, Login.advance]
        exact h.claim hk rfl
      | write i =>
        simp only [Race.step, hk, Login.advance]
        exact h.write hk rfl
      | done i =>
        simp only [Race.step, hk, Login.advance, Scan.set_same hk]
        exact h
      | full =>
        simp only [Race.step, hk, Login.advance, Scan.set_same hk]
        exact h
  | save sid st hand now => exact h.call sid (keeps_save st hand now)
  | load sid st hand now =>
    simp only [Race.step, load_store]
    exact h.call sid (keeps_seen now)
  | touch sid now => exact h.call sid (keeps_seen now)

end Step

/-- Logins that have returned an id own different slots; the id is found, and in
the own slot unless another login computed the same. -/
structure Separate (r : Race) : Prop where
  slots : ∀ (k n : ℕ) (a b : Login) (i j : ℕ), r.logins[k]? = some a → r.logins[n]? = some b →
    k ≠ n → a.pc = .done i → b.pc = .done j → i ≠ j
  found : ∀ a ∈ r.logins, ∀ i, a.pc = .done i → (r.store.lookup (allocId a.env i)).isSome
  own : ∀ (k : ℕ) (a : Login) (i : ℕ), r.logins[k]? = some a → a.pc = .done i →
    (∀ (n : ℕ) (b : Login) (j : ℕ), n ≠ k → r.logins[n]? = some b → b.pc = .done j →
      allocId b.env j ≠ allocId a.env i) →
    r.store.sessions.findIdx? (SessionEntry.has (allocId a.env i)) = some i

theorem RaceInv.separate {r : Race} (h : RaceInv r) : Separate r := by
  have hentry : ∀ a ∈ r.logins, ∀ i, a.pc = .done i →
      ∃ e, r.store.sessions[i]? = some e ∧ e.has (allocId a.env i) = true := by
    intro a ha i hd
    have hv := h.marked a ha i (Or.inr hd)
    have hid := h.named a ha i hd
    rw [Store.flags, List.getElem?_map, Option.map_eq_some_iff] at hv
    rw [Store.names, List.getElem?_map, Option.map_eq_some_iff] at hid
    obtain ⟨e, he, hv⟩ := hv
    obtain ⟨e', he', hid⟩ := hid
    obtain rfl := Option.some.inj (he.symm.trans he')
    exact ⟨e, he, by simp [SessionEntry.has, hv, hid]⟩
  refine ⟨fun k n a b i j hk hn hkn ha hb hij => ?_, fun a ha i hd => ?_, fun k a i hk hd hne => ?_⟩
  · refine hkn (h.apart k n a b i hk hn (by rw [ha]; rfl) ?_)
    rw [hb, hij]
    rfl
  · obtain ⟨e, he, hhas⟩ := hentry a ha i hd
    rw [Store.lookup, Option.isSome_map, List.find?_isSome]
    exact ⟨e, List.mem_of_getElem? he, hhas⟩
  · obtain ⟨e, he, hhas⟩ := hentry a (List.mem_of_getElem? hk) i hd
    obtain ⟨j, hj⟩ := Option.isSome_iff_exists.mp
      (List.findIdx?_isSome.trans (List.any_eq_true.mpr ⟨e, List.mem_of_getElem? he, hhas⟩))
    obtain ⟨hlt, hhit, _⟩ := List.findIdx?_eq_some_iff_getElem.mp hj
    simp only [SessionEntry.has, Bool.and_eq_true, beq_iff_eq] at hhit
    -- the slot found belongs to a login that has finished there
    have hname : r.store.names[j]? = some (allocId a.env i) := by
      rw [Store.names, List.getElem?_map, List.getElem?_eq_getElem hlt, Option.map_some, hhit.2]
    obtain ⟨b, hb, hbd, hbid⟩ := h.owned j _ hname (allocId_ne_zero a.env i)
    obtain ⟨n, hn⟩ := List.mem_iff_getElem?.mp hb
    by_cases hnk : n = k
    · rw [hnk, hk] at hn
      rw [← Option.some.inj hn, hd] at hbd
      cases hbd
      exact hj
    · exact absurd hbid (hne n b j hnk hn hbd)

/-- Concurrent logins get separate slots in every run in which no test finds a
slot free that another login has found free and not yet marked. -/
theorem logins_separate (ms : List RaceMove)
    (h : Run.Along Race.step Exclusive Race.zero ms) :
    Separate (ms.foldl Race.step Race.zero) :=
  (Run.invariant (fun _ m hm => raceInv_step m hm) raceInv_zero h).separate

/-- Two logins, the second starting while the first writes its id, and a save in
between. -/
theorem logins_separate_two :
    let r := [.start ⟨100, 7, 0, 0⟩, .start ⟨100, 9, 0, 0⟩, .advance 0, .advance 0, .advance 1,
      .save 107 State.zero Hand.zero 0, .advance 0, .advance 1, .advance 1, .advance 1].foldl
        Race.step Race.zero
    (r.store.lookup (allocId ⟨100, 7, 0, 0⟩ 0)).isSome ∧
      (r.store.lookup (allocId ⟨100, 9, 0, 0⟩ 1)).isSome := by
  have h := logins_separate [.start ⟨100, 7, 0, 0⟩, .start ⟨100, 9, 0, 0⟩, .advance 0, .advance 0,
    .advance 1, .save 107 State.zero Hand.zero 0, .advance 0, .advance 1, .advance 1, .advance 1]
    (by decide +kernel)
  exact ⟨h.found ⟨⟨100, 7, 0, 0⟩, .done 0⟩ (by decide +kernel) 0 rfl,
    h.found ⟨⟨100, 9, 0, 0⟩, .done 1⟩ (by decide +kernel) 1 rfl⟩

/-- Both logins test slot 0 before either marks it. -/
def raced : List RaceMove :=
  [.start ⟨100, 7, 0, 0⟩, .start ⟨100, 9, 0, 0⟩, .advance 0, .advance 1, .advance 0, .advance 0,
    .advance 1, .advance 1]

/-- Both own slot 0, and the id of the first is lost. -/
theorem logins_collide : ¬ Separate (raced.foldl Race.step Race.zero) := by
  intro h
  have hlost : (raced.foldl Race.step Race.zero).store.lookup (allocId ⟨100, 7, 0, 0⟩ 0) = none := by
    decide +kernel
  have hfound := h.found ⟨⟨100, 7, 0, 0⟩, .done 0⟩ (by decide +kernel) 0 rfl
  rw [hlost] at hfound
  cases hfound

end MiniTcg.Ipc
