import Mathlib.Logic.Function.Basic
import MiniTcg.Ipc.Refinement

/-!
# Calls that overlap

The four calls in their own steps: they test slot by slot, and read and write the fields
of the slot they have found one after the other. Run by any number of processes in any
order, the steps are those of atomic calls, as long as no two processes are inside calls
on one session, or inside `ipc_alloc_session`, at the same time.
-/
namespace MiniTcg.Ipc

open MiniTcg.Game

/-! ### A call in steps -/

/-- The test of the search. -/
def Call.hits : Call → SessionEntry → Bool
  | .alloc _ => fun e => !e.valid
  | .save sid _ _ _ => SessionEntry.has sid
  | .load sid _ _ _ => SessionEntry.has sid
  | .touch sid _ => SessionEntry.has sid

/-- What a call writes into the slot it has found, in its order; it writes nothing where a
load reads. There may be anything in a structure while it is copied. -/
def Call.writes (junk : State × Hand) (i : ℕ) : Call → List (SessionEntry → SessionEntry)
  | .alloc env => [fun e => { e with valid := true }, fun e => { e with sessionId := allocId env i },
      fun e => { e with lastSeen := env.seen }]
  | .save _ st hand now => [fun e => { e with st := junk.1 }, fun e => { e with st := st },
      fun e => { e with hand := junk.2 }, fun e => { e with hand := hand },
      fun e => { e with lastSeen := now }]
  | .load _ _ _ now => [id, id, fun e => { e with lastSeen := now }]
  | .touch _ now => [fun e => { e with lastSeen := now }]

/-- The pair a load has copied out after its step `n` at the slot `e`. -/
def Call.reads (n : ℕ) (e : SessionEntry) (got : State × Hand) : Call → State × Hand
  | .load _ _ _ _ => if n = 0 then (e.st, got.2) else if n = 1 then (got.1, e.hand) else got
  | _ => got

/-- What a call returns, with the caller's pair after a load. -/
inductive Reply
  | given (sid : UInt64)
  | code (rc : ℤ)
  | loaded (rc : ℤ) (st : State) (hand : Hand)

/-- The answer at slot `i`. -/
def Call.found (i : ℕ) (got : State × Hand) : Call → Reply
  | .alloc env => .given (allocId env i)
  | .save _ _ _ _ => .code 0
  | .load _ _ _ _ => .loaded 0 got.1 got.2
  | .touch _ _ => .code 0

/-- The answer behind the last slot. -/
def Call.missed : Call → Reply
  | .alloc _ => .given 0
  | .save _ _ _ _ => .code (-1)
  | .load _ st hand _ => .loaded (-1) st hand
  | .touch _ _ => .code (-1)

/-- Before the test of slot `i`, or at the slot `i` with `n` steps done. -/
inductive Stage
  | test (i : ℕ)
  | slot (i n : ℕ)
  deriving DecidableEq

/-- A call under way. -/
structure Under where
  call : Call
  junk : State × Hand
  stage : Stage
  got : State × Hand

def Under.start (c : Call) (junk : State × Hand) : Under :=
  ⟨c, junk, .test 0, (State.zero, Hand.zero)⟩

/-- The call goes on, or returns. -/
inductive Next
  | goes (u : Under) (s : Store)
  | back (r : Reply)

def Under.next (u : Under) (s : Store) : Next :=
  match u.stage with
  | .test i =>
    match s.sessions[i]? with
    | none => .back u.call.missed
    | some e => .goes { u with stage := if u.call.hits e then .slot i 0 else .test (i + 1) } s
  | .slot i n =>
    match (u.call.writes u.junk i)[n]?, s.sessions[i]? with
    | some f, some e =>
      .goes { u with stage := .slot i (n + 1), got := u.call.reads n e u.got } (s.modify i f)
    | _, _ => .back (u.call.found i u.got)

/-! ### The atomic calls -/

def Store.reply (s : Store) : Call → Reply
  | .alloc env => .given (ipcAllocSession s env).2
  | .save sid st hand now => .code (ipcSaveSession s sid st hand now).2
  | .load sid st hand now => .loaded (ipcLoadSession s sid st hand now).2.1
      (ipcLoadSession s sid st hand now).2.2.1 (ipcLoadSession s sid st hand now).2.2.2
  | .touch sid now => .code (ipcTouchSession s sid now).2

/-- The slot after the first `n` writes. -/
def Call.done (c : Call) (junk : State × Hand) (i n : ℕ) (e : SessionEntry) : SessionEntry :=
  ((c.writes junk i).take n).foldl (fun e f => f e) e

section Atomic
variable {s : Store} {c : Call} {k : ℕ} {sid : UInt64} {f : SessionEntry → SessionEntry}

theorem onSlot_found (hk : s.sessions.findIdx? (SessionEntry.has sid) = some k) :
    (s.onSlot sid f).1 = s.modify k f ∧ (s.onSlot sid f).2 = 0 := by
  have hu : Scan.updateFirst (SessionEntry.has sid) f s.sessions = some (s.sessions.modify k f) := by
    rw [Scan.updateFirst, hk]
    rfl
  unfold Store.onSlot
  split
  · rename_i l hl
    obtain rfl := Option.some.inj (hu.symm.trans hl)
    exact ⟨rfl, rfl⟩
  · rename_i hn
    cases hu.symm.trans hn

theorem onSlot_missed (hk : s.sessions.findIdx? (SessionEntry.has sid) = none) :
    s.lookup sid = none := by
  rw [Store.lookup, Option.map_eq_none_iff, List.find?_eq_none]
  intro e he
  rw [List.findIdx?_eq_none_iff.mp hk e he]
  exact Bool.false_ne_true

theorem lookup_found {e : SessionEntry} (hk : s.sessions.findIdx? (SessionEntry.has sid) = some k)
    (he : s.sessions[k]? = some e) : s.lookup sid = some (e.st, e.hand) := by
  obtain ⟨hlt, hhas, hbefore⟩ := List.findIdx?_eq_some_iff_getElem.mp hk
  have hfind : s.sessions.find? (SessionEntry.has sid) = some e := by
    rw [List.find?_eq_some_iff_getElem]
    have hget : s.sessions[k] = e := Option.some.inj ((List.getElem?_eq_getElem hlt).symm.trans he)
    refine ⟨hget ▸ hhas, k, hlt, hget, fun j hj => ?_⟩
    simpa using hbefore j hj
  rw [Store.lookup, hfind]
  rfl

/-- The atomic call when its search ends at slot `k`. -/
theorem call_found {e : SessionEntry} (hk : s.sessions.findIdx? c.hits = some k)
    (he : s.sessions[k]? = some e) (junk : State × Hand) :
    (s.call c).1 = s.modify k (c.done junk k (c.writes junk k).length) ∧
      s.reply c = c.found k (e.st, e.hand) := by
  cases c with
  | alloc env =>
    have halloc : s.sessions.findIdx? (fun e => !e.valid) = some k := hk
    simp only [Store.call, Store.reply, ipcAllocSession, halloc]
    exact ⟨rfl, rfl⟩
  | save sid st hand now =>
    obtain ⟨hstore, hrc⟩ := onSlot_found (f := fun e =>
      { e with st := st, hand := hand, lastSeen := now }) hk
    exact ⟨hstore, congrArg Reply.code hrc⟩
  | touch sid now =>
    obtain ⟨hstore, hrc⟩ := onSlot_found (f := fun e => { e with lastSeen := now }) hk
    exact ⟨hstore, congrArg Reply.code hrc⟩
  | load sid st hand now =>
    obtain ⟨hstore, _⟩ := onSlot_found (f := fun e => { e with lastSeen := now }) hk
    have hload := load_found s sid st hand now (lookup_found hk he)
    simp only [Store.call, Store.reply, load_store]
    refine ⟨hstore, ?_⟩
    rw [hload]
    rfl

/-- The atomic call when its search fails. -/
theorem call_missed (hk : s.sessions.findIdx? c.hits = none) :
    (s.call c).1 = s ∧ s.reply c = c.missed := by
  cases c with
  | alloc env =>
    have halloc : s.sessions.findIdx? (fun e => !e.valid) = none := hk
    simp only [Store.call, Store.reply, ipcAllocSession, halloc]
    exact ⟨trivial, rfl⟩
  | save sid st hand now =>
    have hmissed := onSlot_none (f := fun e =>
      { e with st := st, hand := hand, lastSeen := now }) (onSlot_missed hk)
    exact ⟨congrArg Prod.fst hmissed, congrArg (fun p : Store × ℤ => Reply.code p.2) hmissed⟩
  | touch sid now =>
    have hmissed := onSlot_none (f := fun e => { e with lastSeen := now }) (onSlot_missed hk)
    exact ⟨congrArg Prod.fst hmissed, congrArg (fun p : Store × ℤ => Reply.code p.2) hmissed⟩
  | load sid st hand now =>
    have hload := load_missing s sid st hand now (onSlot_missed hk)
    simp only [Store.call, Store.reply, hload]
    exact ⟨trivial, rfl⟩

end Atomic

/-! ### Calls that keep apart -/

/-- The id a call looks for. -/
def Call.sid? : Call → Option UInt64
  | .alloc _ => none
  | .save sid _ _ _ => some sid
  | .load sid _ _ _ => some sid
  | .touch sid _ => some sid

/-- An allocation that has found its slot may be taken for the session `sid`: it is going
to give it that id, and before it does the slot carries the id 0. -/
def Under.names (u : Under) (sid : UInt64) : Prop :=
  match u.call, u.stage with
  | .alloc env, .slot i _ => sid = 0 ∨ sid = allocId env i
  | _, _ => False

instance Under.decidableNames (u : Under) (sid : UInt64) : Decidable (u.names sid) :=
  match h : u.call, h' : u.stage with
  | .alloc env, .slot i _ =>
    decidable_of_iff (sid = 0 ∨ sid = allocId env i) (by simp only [Under.names, h, h'])
  | .alloc _, .test _ => isFalse (by simp only [Under.names, h, h', not_false_eq_true])
  | .save .., _ => isFalse (by simp only [Under.names, h, not_false_eq_true])
  | .load .., _ => isFalse (by simp only [Under.names, h, not_false_eq_true])
  | .touch .., _ => isFalse (by simp only [Under.names, h, not_false_eq_true])

/-- Two calls under way that get into each other's way. -/
def Under.Clash (u v : Under) : Prop :=
  match u.call.sid?, v.call.sid? with
  | none, none => True
  | some sid, some sid' => sid = sid'
  | some sid, none => v.names sid
  | none, some sid => u.names sid

instance Under.decidableClash (u v : Under) : Decidable (u.Clash v) :=
  match h : u.call.sid?, h' : v.call.sid? with
  | none, none => isTrue (by simp only [Under.Clash, h, h'])
  | some sid, some sid' => decidable_of_iff (sid = sid') (by simp only [Under.Clash, h, h'])
  | some sid, none => decidable_of_iff (v.names sid) (by simp only [Under.Clash, h, h'])
  | none, some sid => decidable_of_iff (u.names sid) (by simp only [Under.Clash, h, h'])

/-- No two processes are inside calls that clash. -/
def Apart (under : ℕ → Option Under) : Prop :=
  ∀ i j u v, i ≠ j → under i = some u → under j = some v → ¬ u.Clash v

section Writes
variable {c : Call} {junk : State × Hand} {i n : ℕ} {e : SessionEntry} {sid : UInt64}

theorem hits_sid (h : c.sid? = some sid) (e : SessionEntry) : c.hits e = e.has sid := by
  cases c with
  | alloc env => cases h
  | save sid' st hand now => rw [Call.hits, Option.some.inj h]
  | load sid' st hand now => rw [Call.hits, Option.some.inj h]
  | touch sid' now => rw [Call.hits, Option.some.inj h]

theorem hits_alloc (h : c.sid? = none) (e : SessionEntry) : c.hits e = !e.valid := by
  cases c with
  | alloc env => rfl
  | save sid' st hand now => cases h
  | load sid' st hand now => cases h
  | touch sid' now => cases h

theorem sid_none {c : Call} (hc : c.sid? = none) : ∃ env, c = .alloc env := by
  cases c with
  | alloc env => exact ⟨env, rfl⟩
  | save sid st hand now => cases hc
  | load sid st hand now => cases hc
  | touch sid now => cases hc

/-- One more write. -/
theorem done_succ {f : SessionEntry → SessionEntry} (hf : (c.writes junk i)[n]? = some f)
    (e : SessionEntry) : c.done junk i (n + 1) e = f (c.done junk i n e) := by
  rw [Call.done, List.take_add_one, hf, List.foldl_append]
  rfl

/-- A call on a session writes neither `valid` nor the id. -/
theorem keeps_done (h : c.sid? = some sid) (junk : State × Hand) (i n : ℕ) :
    Keeps (c.done junk i n) := by
  have hall : ∀ fs : List (SessionEntry → SessionEntry), (∀ f ∈ fs, Keeps f) →
      Keeps fun e => fs.foldl (fun e f => f e) e := by
    intro fs
    induction fs with
    | nil => exact fun _ e => ⟨rfl, rfl⟩
    | cons f fs ih =>
      intro hfs e
      obtain ⟨hf, hrest⟩ := List.forall_mem_cons.mp hfs
      obtain ⟨hsid, hvalid⟩ := ih hrest (f e)
      exact ⟨hsid.trans (hf e).1, hvalid.trans (hf e).2⟩
  have hwrites : ∀ f ∈ c.writes junk i, Keeps f := by
    cases c with
    | alloc env => cases h
    | save sid' st hand now =>
      intro f hf
      simp only [Call.writes, List.mem_cons, List.not_mem_nil, or_false] at hf
      rcases hf with rfl | rfl | rfl | rfl | rfl <;> exact fun e => ⟨rfl, rfl⟩
    | load sid' st hand now =>
      intro f hf
      simp only [Call.writes, List.mem_cons, List.not_mem_nil, or_false] at hf
      rcases hf with rfl | rfl | rfl <;> exact fun e => ⟨rfl, rfl⟩
    | touch sid' now =>
      intro f hf
      simp only [Call.writes, List.mem_cons, List.not_mem_nil, or_false] at hf
      rw [hf]
      exact fun e => ⟨rfl, rfl⟩
  exact hall _ fun f hf => hwrites f (List.mem_of_mem_take hf)

/-- What another process sees of a slot an allocation has found. -/
theorem done_alloc (env : AllocEnv) (junk : State × Hand) (i n : ℕ) (e : SessionEntry) :
    ((Call.alloc env).done junk i n e).valid = (e.valid || decide (1 ≤ n)) ∧
      ((Call.alloc env).done junk i n e).sessionId = if 2 ≤ n then allocId env i else e.sessionId := by
  match n with
  | 0 =>
    constructor
    · exact (Bool.or_false e.valid).symm
    · rfl
  | 1 =>
    constructor
    · exact (Bool.or_true e.valid).symm
    · rfl
  | 2 =>
    constructor
    · exact (Bool.or_true e.valid).symm
    · rfl
  | n + 3 =>
    have hdone : (Call.alloc env).done junk i (n + 3) e =
        { e with valid := true, sessionId := allocId env i, lastSeen := env.seen } := by
      rw [Call.done, List.take_of_length_le (Nat.le_add_left 3 n)]
      rfl
    rw [hdone]
    constructor
    · exact (Bool.or_true e.valid).symm
    · exact (if_pos (by omega)).symm

end Writes

/-! ### The store behind the calls under way -/

/-- The search of `c` finds none of the first `i` slots. -/
def Passed (a : Store) (c : Call) (i : ℕ) : Prop :=
  ∀ j < i, ∀ e, a.sessions[j]? = some e → c.hits e = false

/-- The call `u` has done `n` steps at slot `k` of `s`, which `a` has as it was before. -/
structure Held (s a : Store) (u : Under) (k n : ℕ) (e : SessionEntry) : Prop where
  before : a.sessions[k]? = some e
  now : s.sessions[k]? = some (u.call.done u.junk k n e)
  hit : u.call.hits e = true
  passed : Passed a u.call k
  bound : n ≤ (u.call.writes u.junk k).length
  read : ∀ sid st hand t, u.call = .load sid st hand t →
    (1 ≤ n → u.got.1 = e.st) ∧ (2 ≤ n → u.got.2 = e.hand)

/-- The store `a` has the effects of the calls that have returned; `s` has also those of
the steps under way. -/
structure Behind (s : Store) (under : ℕ → Option Under) (a : Store) : Prop where
  clear : ∀ k, (∀ i u n, under i = some u → u.stage ≠ .slot k n) → s.sessions[k]? = a.sessions[k]?
  passed : ∀ i u j, under i = some u → u.stage = .test j → Passed a u.call j
  held : ∀ i u k n, under i = some u → u.stage = .slot k n → ∃ e, Held s a u k n e
  blank : ∀ e ∈ a.sessions, e.valid = false → e.sessionId = 0

section Behind
variable {s a : Store} {under : ℕ → Option Under} {u v : Under} {i j k n : ℕ} {e : SessionEntry}

theorem behind_zero : Behind Store.zero (fun _ => none) Store.zero where
  clear _ _ := rfl
  passed _ _ _ hu := by cases hu
  held _ _ _ _ hu := by cases hu
  blank e he _ := by rw [List.eq_of_mem_replicate he]; rfl

/-- A search passes over the slot of another call, whether it sees it as it was before that
call or as it is now. -/
theorem Held.misses (h : Held s a v k n e) (hstage : v.stage = .slot k n)
    (hblank : e.valid = false → e.sessionId = 0) (hapart : ¬ u.Clash v) :
    u.call.hits e = false ∧ u.call.hits (v.call.done v.junk k n e) = false := by
  have hhit := h.hit
  cases hv : v.call.sid? with
  | some sid =>
    rw [hits_sid hv, SessionEntry.has, Bool.and_eq_true, beq_iff_eq] at hhit
    obtain ⟨hvalid, hsid⟩ := hhit
    obtain ⟨hsid', hvalid'⟩ := keeps_done hv v.junk k n e
    cases hu : u.call.sid? with
    | none =>
      rw [hits_alloc hu, hits_alloc hu, hvalid', hvalid]
      exact ⟨rfl, rfl⟩
    | some sid' =>
      have hne : sid' ≠ sid := by
        intro heq
        apply hapart
        simp only [Under.Clash, hu, hv, heq]
      have hmiss : (e.sessionId == sid') = false := by
        rw [hsid]
        exact beq_false_of_ne (Ne.symm hne)
      rw [hits_sid hu, hits_sid hu]
      simp only [SessionEntry.has, hsid', hmiss, Bool.and_false, and_self]
  | none =>
    cases hu : u.call.sid? with
    | none =>
      refine absurd ?_ hapart
      simp only [Under.Clash, hu, hv]
    | some sid =>
      obtain ⟨env, hcall⟩ := sid_none hv
      have hnames : ¬ (sid = 0 ∨ sid = allocId env k) := by
        have hclash : u.Clash v = v.names sid := by simp only [Under.Clash, hu, hv]
        have hsids : v.names sid = (sid = 0 ∨ sid = allocId env k) := by
          simp only [Under.names, hcall, hstage]
        rwa [hclash, hsids] at hapart
      have hfree : e.valid = false := by
        rw [hits_alloc hv] at hhit
        exact (Bool.not_eq_true' _).mp hhit
      obtain ⟨_, hid⟩ := done_alloc env v.junk k n e
      rw [hits_sid hu, hits_sid hu, hcall]
      constructor
      · simp only [SessionEntry.has, hfree, Bool.false_and]
      · have hmiss : (((Call.alloc env).done v.junk k n e).sessionId == sid) = false := by
          rw [hid]
          split
          · exact beq_false_of_ne fun heq => hnames (Or.inr heq.symm)
          · rw [hblank hfree]
            exact beq_false_of_ne fun heq => hnames (Or.inl heq.symm)
        simp only [SessionEntry.has, hmiss, Bool.and_false]

/-- One process at most is at a slot. -/
theorem Behind.one (h : Behind s under a) (hapart : Apart under) {m : ℕ} (hij : i ≠ j)
    (hu : under i = some u) (hv : under j = some v) (hus : u.stage = .slot k n)
    (hvs : v.stage = .slot k m) : False := by
  obtain ⟨e, hheld⟩ := h.held i u k n hu hus
  obtain ⟨e', hother⟩ := h.held j v k m hv hvs
  obtain rfl := Option.some.inj (hheld.before.symm.trans hother.before)
  have hmiss := hother.misses (u := u) hvs (h.blank e (List.mem_of_getElem? hheld.before))
    (hapart i j u v hij hu hv)
  rw [hheld.hit] at hmiss
  cases hmiss.1

/-- What a process at its search sees in a slot is what is behind it. -/
theorem Behind.sees (h : Behind s under a) (hapart : Apart under) (hu : under i = some u)
    (htest : u.stage = .test k) (he : s.sessions[k]? = some e) :
    (u.call.hits e = false ∧ ∀ e', a.sessions[k]? = some e' → u.call.hits e' = false) ∨
      a.sessions[k]? = some e := by
  by_cases hbusy : ∃ j v n, under j = some v ∧ v.stage = .slot k n
  · left
    obtain ⟨j, v, n, hv, hvs⟩ := hbusy
    have hij : i ≠ j := by
      rintro rfl
      rw [hu] at hv
      rw [← Option.some.inj hv, htest] at hvs
      cases hvs
    obtain ⟨e', hother⟩ := h.held j v k n hv hvs
    have hmiss := hother.misses (u := u) hvs (h.blank e' (List.mem_of_getElem? hother.before))
      (hapart i j u v hij hu hv)
    obtain rfl := Option.some.inj (hother.now.symm.trans he)
    refine ⟨hmiss.2, fun e'' he'' => ?_⟩
    obtain rfl := Option.some.inj (hother.before.symm.trans he'')
    exact hmiss.1
  · right
    rw [← h.clear k fun j v n hv hvs => hbusy ⟨j, v, n, hv, hvs⟩]
    exact he

/-- The calls under way after a step of process `i`. -/
theorem update_cases {x : Option Under} (hv : Function.update under i x j = some v) :
    (j = i ∧ x = some v) ∨ (j ≠ i ∧ under j = some v) := by
  by_cases hj : j = i
  · subst hj
    rw [Function.update_self] at hv
    exact Or.inl ⟨rfl, hv⟩
  · rw [Function.update_of_ne hj] at hv
    exact Or.inr ⟨hj, hv⟩

theorem update_other {x : Option Under} (hj : j ≠ i) (hv : under j = some v) :
    Function.update under i x j = some v := by
  rw [Function.update_of_ne hj]
  exact hv

theorem Passed.succ {c : Call} (h : Passed a c k)
    (hk : ∀ e, a.sessions[k]? = some e → c.hits e = false) : Passed a c (k + 1) := by
  intro j hj e he
  rcases Nat.lt_succ_iff_lt_or_eq.mp hj with hlt | rfl
  · exact h j hlt e he
  · exact hk e he

/-- A call begins. -/
theorem Behind.begins (h : Behind s under a) (hi : under i = none) (c : Call) (junk : State × Hand) :
    Behind s (Function.update under i (some (Under.start c junk))) a where
  clear k hk := by
    refine h.clear k fun j v n hv hvs => hk j v n (update_other ?_ hv) hvs
    rintro rfl
    cases hi.symm.trans hv
  passed j v m hv hvs := by
    rcases update_cases hv with ⟨_, hnew⟩ | ⟨_, hold⟩
    · obtain rfl := Option.some.inj hnew
      obtain rfl : 0 = m := Stage.test.inj hvs
      exact fun j hj => absurd hj (Nat.not_lt_zero j)
    · exact h.passed j v m hold hvs
  held j v k n hv hvs := by
    rcases update_cases hv with ⟨_, hnew⟩ | ⟨_, hold⟩
    · obtain rfl := Option.some.inj hnew
      cases hvs
    · exact h.held j v k n hold hvs
  blank := h.blank

/-- A process goes on at its search. -/
theorem Behind.tests (h : Behind s under a) (hapart : Apart under) (hu : under i = some u)
    (htest : u.stage = .test k) (he : s.sessions[k]? = some e) :
    Behind s (Function.update under i
      (some { u with stage := if u.call.hits e then .slot k 0 else .test (k + 1) })) a where
  clear m hm := by
    refine h.clear m fun j v n hv hvs => hm j v n (update_other ?_ hv) hvs
    rintro rfl
    obtain rfl := Option.some.inj (hu.symm.trans hv)
    cases htest.symm.trans hvs
  passed j v m hv hvs := by
    rcases update_cases hv with ⟨_, hnew⟩ | ⟨_, hold⟩
    · obtain rfl := Option.some.inj hnew
      simp only at hvs
      split at hvs
      · cases hvs
      · rename_i hmiss
        obtain rfl := Stage.test.inj hvs
        refine (h.passed i u k hu htest).succ fun e' he' => ?_
        rcases h.sees hapart hu htest he with ⟨_, hbehind⟩ | hsame
        · exact hbehind e' he'
        · obtain rfl := Option.some.inj (hsame.symm.trans he')
          exact Bool.eq_false_iff.mpr hmiss
    · exact h.passed j v m hold hvs
  held j v m n hv hvs := by
    rcases update_cases hv with ⟨_, hnew⟩ | ⟨_, hold⟩
    · obtain rfl := Option.some.inj hnew
      simp only at hvs
      split at hvs
      · rename_i hhit
        obtain ⟨rfl, rfl⟩ := Stage.slot.inj hvs
        rcases h.sees hapart hu htest he with ⟨hmiss, _⟩ | hsame
        · rw [hmiss] at hhit
          cases hhit
        · exact ⟨e, hsame, he, hhit, h.passed i u k hu htest, Nat.zero_le _,
            fun _ _ _ _ _ => ⟨fun hn => by omega, fun hn => by omega⟩⟩
      · cases hvs
    · exact h.held j v m n hold hvs
  blank := h.blank

/-- A load copies out what is behind its slot. -/
theorem load_reads {sid : UInt64} {st : State} {hand : Hand} {t : UInt64} {e₀ : SessionEntry}
    (hcall : u.call = .load sid st hand t) (he : u.call.done u.junk k n e₀ = e)
    (hfirst : 1 ≤ n → u.got.1 = e₀.st) (hsecond : 2 ≤ n → u.got.2 = e₀.hand) :
    (1 ≤ n + 1 → (u.call.reads n e u.got).1 = e₀.st) ∧
      (2 ≤ n + 1 → (u.call.reads n e u.got).2 = e₀.hand) := by
  rw [hcall] at he ⊢
  match n with
  | 0 =>
    constructor
    · intro _
      exact congrArg SessionEntry.st he.symm
    · intro hn
      omega
  | 1 =>
    constructor
    · intro _
      exact hfirst (Nat.le_refl 1)
    · intro _
      exact congrArg SessionEntry.hand he.symm
  | n + 2 =>
    constructor
    · intro _
      exact hfirst (by omega)
    · intro _
      exact hsecond (by omega)

/-- A process goes on at its slot. -/
theorem Behind.writes (h : Behind s under a) (hapart : Apart under) (hu : under i = some u)
    (hslot : u.stage = .slot k n) {f : SessionEntry → SessionEntry}
    (hf : (u.call.writes u.junk k)[n]? = some f) (he : s.sessions[k]? = some e) :
    Behind (s.modify k f) (Function.update under i
      (some { u with stage := .slot k (n + 1), got := u.call.reads n e u.got })) a where
  clear m hm := by
    have hmk : m ≠ k := by
      rintro rfl
      exact hm i _ (n + 1) (Function.update_self i _ under) rfl
    show (s.sessions.modify k f)[m]? = _
    rw [List.getElem?_modify_ne f s.sessions (Ne.symm hmk)]
    refine h.clear m fun j v n' hv hvs => hm j v n' (update_other ?_ hv) hvs
    rintro rfl
    obtain rfl := Option.some.inj (hu.symm.trans hv)
    exact hmk (Stage.slot.inj (hslot.symm.trans hvs)).1.symm
  passed j v m hv hvs := by
    rcases update_cases hv with ⟨_, hnew⟩ | ⟨_, hold⟩
    · obtain rfl := Option.some.inj hnew
      cases hvs
    · exact h.passed j v m hold hvs
  held j v m n' hv hvs := by
    rcases update_cases hv with ⟨_, hnew⟩ | ⟨hj, hold⟩
    · obtain rfl := Option.some.inj hnew
      obtain ⟨rfl, rfl⟩ := Stage.slot.inj hvs
      obtain ⟨e₀, hheld⟩ := h.held i u k n hu hslot
      have hnow : e = u.call.done u.junk k n e₀ := Option.some.inj (he.symm.trans hheld.now)
      have hlt : n < (u.call.writes u.junk k).length := (List.getElem?_eq_some_iff.mp hf).1
      refine ⟨e₀, hheld.before, ?_, hheld.hit, hheld.passed, hlt, ?_⟩
      · show (s.sessions.modify k f)[k]? = some (u.call.done u.junk k (n + 1) e₀)
        rw [List.getElem?_modify_eq, he, done_succ hf, ← hnow]
        rfl
      · intro sid st hand t hcall
        obtain ⟨hfirst, hsecond⟩ := hheld.read sid st hand t hcall
        exact load_reads hcall hnow.symm hfirst hsecond
    · have hmk : m ≠ k := by
        rintro rfl
        exact h.one hapart hj hold hu hvs hslot
      obtain ⟨e₀, hheld⟩ := h.held j v m n' hold hvs
      refine ⟨e₀, hheld.before, ?_, hheld.hit, hheld.passed, hheld.bound, hheld.read⟩
      show (s.sessions.modify k f)[m]? = _
      rw [List.getElem?_modify_ne f s.sessions (Ne.symm hmk)]
      exact hheld.now
  blank := h.blank

/-- A search that has passed all slots before `k` ends there. -/
theorem Passed.findIdx {c : Call} (h : Passed a c k) (he : a.sessions[k]? = some e)
    (hhit : c.hits e = true) : a.sessions.findIdx? c.hits = some k := by
  obtain ⟨hlt, hget⟩ := List.getElem?_eq_some_iff.mp he
  rw [List.findIdx?_eq_some_iff_getElem]
  refine ⟨hlt, hget ▸ hhit, fun j hj => ?_⟩
  have hmiss := h j hj _ (List.getElem?_eq_getElem (Nat.lt_trans hj hlt))
  rw [hmiss]
  exact Bool.false_ne_true

theorem Passed.findIdx_none {c : Call} (h : Passed a c k) (hk : a.sessions.length ≤ k) :
    a.sessions.findIdx? c.hits = none := by
  rw [List.findIdx?_eq_none_iff]
  intro e he
  obtain ⟨j, hj, hget⟩ := List.mem_iff_getElem.mp he
  exact h j (Nat.lt_of_lt_of_le hj hk) e (by rw [List.getElem?_eq_getElem hj, hget])

/-- A process returns whose search has failed: so does the search of the atomic call. -/
theorem Behind.misses (h : Behind s under a) (hu : under i = some u) (htest : u.stage = .test k)
    (he : s.sessions[k]? = none) :
    Behind s (Function.update under i none) (a.call u.call).1 ∧ a.reply u.call = u.call.missed := by
  have hlen : a.sessions.length ≤ k := by
    have hk := List.getElem?_eq_none_iff.mp he
    rw [s.size] at hk
    rw [a.size]
    exact hk
  obtain ⟨hstore, hreply⟩ := call_missed ((h.passed i u k hu htest).findIdx_none hlen)
  rw [hstore]
  refine ⟨⟨fun m hm => ?_, fun j v m hv hvs => ?_, fun j v m n hv hvs => ?_, h.blank⟩, hreply⟩
  · refine h.clear m fun j v n hv hvs => hm j v n (update_other ?_ hv) hvs
    rintro rfl
    obtain rfl := Option.some.inj (hu.symm.trans hv)
    cases htest.symm.trans hvs
  · rcases update_cases hv with ⟨_, hnew⟩ | ⟨_, hold⟩
    · cases hnew
    · exact h.passed j v m hold hvs
  · rcases update_cases hv with ⟨_, hnew⟩ | ⟨_, hold⟩
    · cases hnew
    · exact h.held j v m n hold hvs

/-- A search looks at `valid` and the id only. -/
theorem hits_keys (c : Call) {e e' : SessionEntry} (hsid : e'.sessionId = e.sessionId)
    (hvalid : e'.valid = e.valid) : c.hits e' = c.hits e := by
  cases hc : c.sid? with
  | none => rw [hits_alloc hc, hits_alloc hc, hvalid]
  | some sid => rw [hits_sid hc, hits_sid hc, SessionEntry.has, SessionEntry.has, hsid, hvalid]

/-- What a call leaves in its slot does not stop the search of another. -/
theorem done_misses (hstage : u.stage = .slot k n)
    (hall : n = (u.call.writes u.junk k).length) (hapart : ¬ v.Clash u)
    (hmiss : v.call.hits e = false) : v.call.hits (u.call.done u.junk k n e) = false := by
  cases hu : u.call.sid? with
  | some sid =>
    obtain ⟨hsid, hvalid⟩ := keeps_done hu u.junk k n e
    rw [hits_keys v.call hsid hvalid]
    exact hmiss
  | none =>
    obtain ⟨env, hcall⟩ := sid_none hu
    cases hv : v.call.sid? with
    | none =>
      refine absurd ?_ hapart
      simp only [Under.Clash, hu, hv]
    | some sid =>
      have hnames : ¬ (sid = 0 ∨ sid = allocId env k) := by
        have hclash : v.Clash u = u.names sid := by simp only [Under.Clash, hu, hv]
        have hsids : u.names sid = (sid = 0 ∨ sid = allocId env k) := by
          simp only [Under.names, hcall, hstage]
        rwa [hclash, hsids] at hapart
      have hthree : n = 3 := by
        rw [hall, hcall]
        rfl
      obtain ⟨_, hid⟩ := done_alloc env u.junk k n e
      rw [if_pos (by omega)] at hid
      rw [hits_sid hv, hcall, SessionEntry.has, hid, Bool.and_eq_false_iff]
      right
      exact beq_false_of_ne fun heq => hnames (Or.inr heq.symm)

/-- A finished call has left a slot with its id, or kept the one it had. -/
theorem done_blank (hall : n = (u.call.writes u.junk k).length)
    (hblank : e.valid = false → e.sessionId = 0) :
    (u.call.done u.junk k n e).valid = false → (u.call.done u.junk k n e).sessionId = 0 := by
  intro hfree
  cases hu : u.call.sid? with
  | some sid =>
    obtain ⟨hsid, hvalid⟩ := keeps_done hu u.junk k n e
    rw [hvalid] at hfree
    rw [hsid]
    exact hblank hfree
  | none =>
    obtain ⟨env, hcall⟩ := sid_none hu
    obtain ⟨hvalid, _⟩ := done_alloc env u.junk k n e
    have hthree : n = 3 := by
      rw [hall, hcall]
      rfl
    rw [hcall, hvalid, hthree] at hfree
    simp at hfree

/-- A load returns the pair behind its slot. -/
theorem Held.answers (h : Held s a u k n e) (hall : n = (u.call.writes u.junk k).length) :
    u.call.found k (e.st, e.hand) = u.call.found k u.got := by
  cases hcall : u.call with
  | load sid st hand t =>
    obtain ⟨hst, hhand⟩ := h.read sid st hand t hcall
    have hthree : n = 3 := by
      rw [hall, hcall]
      rfl
    simp only [Call.found, hst (by omega), hhand (by omega)]
  | alloc env => rfl
  | save sid st hand now => rfl
  | touch sid now => rfl

/-- A process returns from its slot: the atomic call does the same. -/
theorem Behind.returns (h : Behind s under a) (hapart : Apart under) (hu : under i = some u)
    (hslot : u.stage = .slot k n) (hn : (u.call.writes u.junk k)[n]? = none) :
    Behind s (Function.update under i none) (a.call u.call).1 ∧
      a.reply u.call = u.call.found k u.got := by
  obtain ⟨e, hheld⟩ := h.held i u k n hu hslot
  have hall : n = (u.call.writes u.junk k).length :=
    Nat.le_antisymm hheld.bound (List.getElem?_eq_none_iff.mp hn)
  obtain ⟨hstore, hreply⟩ :=
    call_found (hheld.passed.findIdx hheld.before hheld.hit) hheld.before u.junk
  rw [hstore, ← hall]
  have hafter : (a.modify k (u.call.done u.junk k n)).sessions[k]? =
      some (u.call.done u.junk k n e) := by
    show (a.sessions.modify k _)[k]? = _
    rw [List.getElem?_modify_eq, hheld.before]
    rfl
  have hrest : ∀ m, m ≠ k →
      (a.modify k (u.call.done u.junk k n)).sessions[m]? = a.sessions[m]? :=
    fun m hm => List.getElem?_modify_ne _ a.sessions (Ne.symm hm)
  have hpassed : ∀ j v m, j ≠ i → under j = some v → Passed a v.call m →
      Passed (a.modify k (u.call.done u.junk k n)) v.call m := by
    intro j v m hj hv hp l hl e' he'
    by_cases hlk : l = k
    · subst hlk
      obtain rfl := Option.some.inj (hafter.symm.trans he')
      exact done_misses hslot hall (hapart j i v u hj hv hu) (hp l hl e hheld.before)
    · rw [hrest l hlk] at he'
      exact hp l hl e' he'
  refine ⟨⟨fun m hm => ?_, fun j v m hv hvs => ?_, fun j v m n' hv hvs => ?_, fun e' he' => ?_⟩,
    hreply.trans (hheld.answers hall)⟩
  · by_cases hmk : m = k
    · rw [hmk, hafter]
      exact hheld.now
    · rw [hrest m hmk]
      refine h.clear m fun j v n' hv hvs => hm j v n' (update_other ?_ hv) hvs
      rintro rfl
      obtain rfl := Option.some.inj (hu.symm.trans hv)
      exact hmk (Stage.slot.inj (hslot.symm.trans hvs)).1.symm
  · rcases update_cases hv with ⟨_, hnew⟩ | ⟨hj, hold⟩
    · cases hnew
    · exact hpassed j v m hj hold (h.passed j v m hold hvs)
  · rcases update_cases hv with ⟨_, hnew⟩ | ⟨hj, hold⟩
    · cases hnew
    · have hmk : m ≠ k := by
        rintro rfl
        exact h.one hapart hj hold hu hvs hslot
      obtain ⟨e₀, hother⟩ := h.held j v m n' hold hvs
      exact ⟨e₀, (hrest m hmk).trans hother.before, hother.now, hother.hit,
        hpassed j v m hj hold hother.passed, hother.bound, hother.read⟩
  · obtain ⟨l, hl⟩ := List.mem_iff_getElem?.mp he'
    by_cases hlk : l = k
    · subst hlk
      obtain rfl := Option.some.inj (hafter.symm.trans hl)
      exact done_blank hall (h.blank e (List.mem_of_getElem? hheld.before))
    · rw [hrest l hlk] at hl
      exact h.blank e' (List.mem_of_getElem? hl)

end Behind

end MiniTcg.Ipc
