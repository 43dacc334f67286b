import MiniTcg.Client.Link

/-!
# The console client in lockstep with the server

`run_app_mode` from its login on, against a worker. It sends one request at a
time and reads until it has seen a state and a hand. Whatever keys are pressed,
at its key loop nothing is on its way in either direction and it shows the match
of the worker.
-/
namespace MiniTcg.Client

open MiniTcg.Game MiniTcg.Ipc MiniTcg.Wire MiniTcg.Server

/-- Inside `recv_until`, at `getch`, or past the loop. -/
inductive ConsolePc
  | waiting (gotState gotHand : Bool)
  | keys
  | closed
  deriving DecidableEq

structure Console where
  pc : ConsolePc
  st : State
  hand : Hand

/-- In the `recv_until` of the login. -/
def Console.start : Console := ⟨.waiting false false, State.zero, Hand.zero⟩

/-- One pass of the loop of `recv_until`. A state or a hand is always sent with the
size of its structure. -/
def Console.recvUntil (c : Console) (gotState gotHand : Bool) (m : Msg) : Console :=
  let r : State × Hand × Bool × Bool :=
    match m with
    | .state st => (st, c.hand, true, gotHand)
    | .hand hand => (c.st, hand, gotState, true)
    | _ => (c.st, c.hand, gotState, gotHand)
  ⟨if r.2.2.1 && r.2.2.2 then .keys else .waiting r.2.2.1 r.2.2.2, r.1, r.2.1⟩

def Console.take (c : Console) (m : Msg) : Console × List Packet :=
  match c.pc with
  | .waiting gotState gotHand => (c.recvUntil gotState gotHand m, [])
  | _ => (c, [])

def Console.wait (c : Console) : Console := { c with pc := .waiting false false }

def Console.quit (c : Console) : Console := { c with pc := .closed }

/-- The code `getch` returns for a character. -/
def keyCode (ch : Char) : ℤ := ch.toNat

/-- One pass of the key loop, with what `getch` returned. -/
def Console.key (c : Console) (ch : ℤ) : Console × List Packet :=
  match c.pc with
  | .keys =>
    if ch = keyCode 'q' ∨ ch = keyCode 'Q' then (c.quit, [])
    else if c.st.gameOver ≠ 0 then (c, [])
    else if ch = keyCode 'e' ∨ ch = keyCode 'E' then (c.wait, [⟨opEndTurn, []⟩])
    else if ch = keyCode '1' ∨ ch = keyCode '2' ∨ ch = keyCode '3' then
      let idx := ch - keyCode '1'
      if idx < 0 ∨ (c.hand.n.toNat : ℤ) ≤ idx then (c, [])
      else (c.wait, [⟨opPlayCard, [UInt8.ofNat idx.toNat]⟩])
    else (c, [])
  | _ => (c, [])

def console : Program Console ℤ where
  cap := 2048
  waits c := match c.pc with | .waiting _ _ => true | _ => false
  closed c := match c.pc with | .closed => true | _ => false
  react := Console.key
  take := Console.take
  lost c := (c.quit, [])

/-! ### What the console reads -/

theorem console_hears (c : Console) (m : Msg) : console.hears c m = c.take m :=
  if_pos ((payload_le m).trans (by decide))

theorem console_skips {err : List Msg} (herr : ∀ m ∈ err, Msg.Plain m) {c : Console}
    (hpc : c.pc = .waiting false false) (g : Match) :
    Feeds console c (err ++ table g) (⟨.keys, g.st, g.hand⟩, []) := by
  obtain ⟨pc, st, hand⟩ := c
  simp only at hpc
  subst hpc
  induction err with
  | nil =>
    have hstate : console.hears ⟨.waiting false false, st, hand⟩ (.state g.st) =
        (⟨.waiting true false, g.st, hand⟩, []) := console_hears _ _
    exact .more rfl hstate (.last rfl (console_hears _ _))
  | cons m err ih =>
    obtain ⟨hm, hrest⟩ := List.forall_mem_cons.mp herr
    refine .more rfl ((console_hears _ m).trans ?_) (ih hrest)
    cases m with
    | state st => exact absurd hm.1 nofun
    | hand hand => exact absurd hm.2 nofun
    | loginResp ok => rfl
    | resumeResp ok sid => rfl
    | pong => rfl
    | error code msg => rfl

/-! ### The joint invariant -/

/-- What the console has read when an exchange is over: an accepted login, or the
reply to a request, a state and a hand after at most one error. -/
def ConsoleAnswer (g : Match) (p : Packet) (ms : List Msg) : Prop :=
  (p = loginPacket ∧ ∃ sid, ms = welcome sid (loginGame g)) ∨
    (Request p ∧ ms = reply g p ∧ ∃ err, AtMostError err ∧ ms = err ++ table (onPacket g p))

/-- The exchange `x` of a console whose earlier ones are over. -/
structure Console.Plan (rng : ℕ → ℕ) (x : Exchange Console) : Prop where
  left : x.left = []
  next : x.next = (⟨.keys, x.game.st, x.game.hand⟩, [])
  game : x.game = Talk.game rng ((x.packet, x.whole) :: x.older)
  answer : ConsoleAnswer (Talk.game rng x.older) x.packet x.whole
  past : Talk.Each ConsoleAnswer rng x.older

/-- Inside `recv_until`. -/
inductive Console.Waits (rng : ℕ → ℕ) (n : ℕ) (s : Link Console) : Prop
  | joining (h : Joining rng Console.start n s)
  | refused (h : Refused Console.start s)
  | talking {x : Exchange Console} (plan : Console.Plan rng x) (h : Talking console x n s)

/-- At the key loop. -/
structure Console.AtKeys (rng : ℕ → ℕ) (s : Link Console) : Prop where
  pc : s.client.pc = .keys
  up : s.up = []
  down : s.down = []
  waiting : s.worker.pc = .recv
  st : s.client.st = s.worker.game.st
  hand : s.client.hand = s.worker.game.hand
  idle : Idle s.worker.game.st.toCore
  game : s.worker.game = s.talk.game rng
  stream : sent s.worker.io = s.talk.read
  past : Talk.Each ConsoleAnswer rng s.talk

inductive Console.Inv (rng : ℕ → ℕ) (s : Link Console) : Prop
  | closed (h : s.client.pc = .closed)
  | waits {n : ℕ} (hn : n ≤ 4) (h : Console.Waits rng n s)
  | keys (h : Console.AtKeys rng s)

section Steps
variable {rng : ℕ → ℕ} {n : ℕ} {s : Link Console}

theorem Console.Waits.pc (h : Console.Waits rng n s) : ∃ a b, s.client.pc = .waiting a b := by
  cases h with
  | joining h => exact ⟨false, false, congrArg Console.pc h.client⟩
  | refused h => exact ⟨false, false, congrArg Console.pc h.client⟩
  | talking plan h =>
    have hw := h.waits
    simp only [console] at hw
    split at hw
    · exact ⟨_, _, ‹_›⟩
    · cases hw

theorem Console.Waits.not_closed (h : Console.Waits rng n s) : console.closed s.client = false := by
  obtain ⟨a, b, hpc⟩ := h.pc
  simp only [console, hpc]

theorem welcome_feeds (sid : UInt64) (g : Match) :
    Feeds console Console.start (welcome sid g) (⟨.keys, g.st, g.hand⟩, []) := by
  refine console_skips ?_ rfl g
  exact List.forall_mem_cons.mpr ⟨⟨rfl, rfl⟩, List.forall_mem_singleton.mpr ⟨rfl, rfl⟩⟩

theorem Console.Waits.serve (h : Console.Waits rng n s) (env : AllocEnv) :
    Console.Waits rng (n - 1) (s.step console (.serve env)) := by
  have hopen := h.not_closed
  cases h with
  | refused h => exact .refused (h.serve env)
  | talking plan h => exact .talking plan (h.serve hopen env)
  | joining h =>
    rcases h.serve (P := console) env with hj | ⟨_, _, hr⟩ | ⟨sid, hacc⟩
    · exact .joining hj
    · exact .refused hr
    · have hg : Talk.game rng [(loginPacket, welcome sid (loginGame (origin rng)))] =
          loginGame (origin rng) := rfl
      let x : Exchange Console := ⟨loginPacket, [], welcome sid (loginGame (origin rng)), [],
        loginGame (origin rng), (⟨.keys, (loginGame (origin rng)).st,
          (loginGame (origin rng)).hand⟩, [])⟩
      have hplan : Console.Plan rng x := ⟨rfl, rfl, hg.symm, Or.inl ⟨rfl, sid, rfl⟩, trivial⟩
      exact .talking hplan (hacc x rfl rfl rfl (List.append_nil _) (welcome_feeds sid _))

theorem Console.Waits.other (h : Console.Waits rng n s) (c : Call) :
    Console.Waits rng n (s.step console (.other c)) := by
  cases h with
  | joining h => exact .joining (h.other c)
  | refused h => exact .refused ⟨h.client, h.asked, h.exited, h.answer, h.down⟩
  | talking plan h => exact .talking plan (h.other c)

theorem Console.Waits.take (h : Console.Waits rng n s) (hn : n ≤ 4) :
    Console.Inv rng (s.step console .take) := by
  cases hd : s.down with
  | nil =>
    have hsame : s.step console .take = s := by simp [Link.step, hd]
    rw [hsame]
    exact .waits hn h
  | cons m ds =>
    cases h with
    | joining h =>
      rw [h.down] at hd
      cases hd
    | refused h =>
      have hall := h.down
      rw [hd] at hall
      obtain ⟨rfl, hds⟩ := List.forall_mem_cons.mp hall
      have hw : console.waits Console.start = true := rfl
      refine .waits hn (.refused ?_)
      simp only [Link.step, h.client, hw, hd, console_hears]
      exact ⟨rfl, (asked_hear _ _).trans h.asked, h.exited, h.answer, hds⟩
    | talking plan h =>
      rcases h.take (by rw [plan.left]; exact Nat.zero_le 1) hd with ht | ⟨hpc, hgame, hsent, hstep⟩
      · exact .waits hn (.talking plan ht)
      · refine .keys ?_
        rw [hstep, plan.next, plan.left]
        refine ⟨rfl, rfl, rfl, hpc, ?_, ?_, hgame ▸ h.idle, hgame.trans plan.game, ?_, ?_⟩
        · rw [hgame]
        · rw [hgame]
        · rw [hsent, plan.left, List.append_nil]
          exact (read_cons _ _ _).symm
        · exact ⟨plan.answer, plan.past⟩

/-- The console has read a part of the answer to its request. -/
theorem Console.Waits.part (h : Console.Waits rng n s) {p : Packet} {read : List Msg} {older : Talk}
    (ht : s.talk = (p, read) :: older) (hp : Request p) :
    ∃ more, more ≠ [] ∧ ConsoleAnswer (Talk.game rng older) p (read ++ more) := by
  cases h with
  | joining h =>
    rw [h.talk] at ht
    cases ht
    exact absurd rfl (request_op hp).2
  | refused h =>
    have hasked := h.asked
    rw [ht] at hasked
    exact absurd (congrArg Packet.op (List.cons.inj hasked).1) (request_op hp).2
  | talking plan h =>
    obtain ⟨ms, rest, htalk, hwhole, hfeeds, _⟩ := h.rest
    rw [htalk] at ht
    cases ht
    refine ⟨rest, hfeeds.ne_nil, ?_⟩
    rw [hwhole]
    exact plan.answer

/-- The only request so far is the login, and the worker has refused it and exited. -/
def LoginRefused (s : Link Console) : Prop :=
  s.talk.map Prod.fst = [loginPacket] ∧ sent s.worker.io = [.error (-999) "server full"] ∧
    s.worker.pc = .closed

/-- With the worker's steps made, there is a packet to read, or the login was refused. -/
theorem Console.Waits.ready (h : Console.Waits rng 0 s) : s.down ≠ [] ∨ LoginRefused s := by
  cases h with
  | joining h =>
    rcases h.stage with ⟨hn, _⟩ | ⟨hn, _⟩
    · omega
    · omega
  | refused h => exact Or.inr ⟨h.asked, h.answer, h.exited⟩
  | talking plan h => exact Or.inl h.ready

/-- A key leaves the console at its loop, ends it, or sends a request. -/
theorem key_cases (c : Console) (hpc : c.pc = .keys) (ch : ℤ) :
    c.key ch = (c, []) ∨ c.key ch = (c.quit, []) ∨
      ∃ p, Request p ∧ c.st.gameOver = 0 ∧ c.key ch = (c.wait, [p]) := by
  unfold Console.key
  simp only [hpc]
  split
  · exact Or.inr (Or.inl rfl)
  · split
    · exact Or.inl rfl
    · rename_i hover
      have hlive : c.st.gameOver = 0 := not_not.mp hover
      split
      · exact Or.inr (Or.inr ⟨_, Or.inl rfl, hlive, rfl⟩)
      · split
        · split
          · exact Or.inl rfl
          · exact Or.inr (Or.inr ⟨_, Or.inr ⟨_, rfl⟩, hlive, rfl⟩)
        · exact Or.inl rfl

theorem Console.AtKeys.ask (h : Console.AtKeys rng s) {p : Packet} (hp : Request p) :
    Console.Waits rng 4 (s.put (s.client.wait, [p])) := by
  obtain ⟨err, hr, herr⟩ := reply_request h.idle hp
  let g := onPacket s.worker.game p
  let x : Exchange Console := ⟨p, s.talk, reply s.worker.game p, [], g, (⟨.keys, g.st, g.hand⟩, [])⟩
  have hgame : g = Talk.game rng ((p, reply s.worker.game p) :: s.talk) := by
    show g = if p.op = opLoginReq then _ else onPacket (s.talk.game rng) p
    rw [if_neg (request_op hp).2, ← h.game]
  have hplan : Console.Plan rng x := by
    refine ⟨rfl, rfl, hgame, Or.inr ⟨hp, ?_, err, herr, ?_⟩, h.past⟩
    · rw [← h.game]
    · rw [← h.game]
      exact hr
  refine .talking hplan (talking_ask h.waiting rfl h.idle hp ?_ rfl ?_ ?_ rfl ?_)
  · show s.up ++ [p] = [p]
    rw [h.up, List.nil_append]
  · show sent s.worker.io = s.talk.read ++ s.down
    rw [h.stream, h.down, List.append_nil]
  · show s.down ++ reply s.worker.game p = reply s.worker.game p ++ []
    rw [h.down, List.nil_append, List.append_nil]
  · show Feeds console s.client.wait (reply s.worker.game p) _
    rw [hr]
    exact console_skips herr.plain rfl g

theorem Console.AtKeys.step (h : Console.AtKeys rng s) (m : LinkMove ℤ) :
    Console.Inv rng (s.step console m) := by
  cases m with
  | input ch =>
    show Console.Inv rng (s.put (s.client.key ch))
    rcases key_cases s.client h.pc ch with hk | hk | ⟨p, hp, _, hk⟩
    · rw [hk, put_nil]
      exact .keys h
    · rw [hk]
      exact .closed rfl
    · rw [hk]
      exact .waits (Nat.le_refl 4) (h.ask hp)
  | take =>
    have hsame : s.step console .take = s := by simp [Link.step, console, h.pc]
    rw [hsame]
    exact .keys h
  | lost =>
    have hsame : s.step console .lost = s := by simp [Link.step, console, h.pc]
    rw [hsame]
    exact .keys h
  | serve env =>
    have hopen : console.closed s.client = false := by simp [console, h.pc]
    rw [serve_waiting h.waiting h.up hopen]
    exact .keys h
  | other c =>
    exact .keys ⟨h.pc, h.up, h.down, h.waiting, h.st, h.hand, h.idle, h.game, h.stream, h.past⟩

theorem Console.Waits.step (h : Console.Waits rng n s) (hn : n ≤ 4) (m : LinkMove ℤ) :
    Console.Inv rng (s.step console m) := by
  obtain ⟨a, b, hpc⟩ := h.pc
  cases m with
  | input ch =>
    have hk : s.client.key ch = (s.client, []) := by simp [Console.key, hpc]
    show Console.Inv rng (s.put (s.client.key ch))
    rw [hk, put_nil]
    exact .waits hn h
  | take => exact h.take hn
  | lost =>
    refine .closed ?_
    simp [Link.step, console, hpc, Link.put, Console.quit]
  | serve env => exact .waits (by omega) (h.serve env)
  | other c => exact .waits hn (h.other c)

theorem console_closed (h : s.client.pc = .closed) (m : LinkMove ℤ) :
    (s.step console m).client.pc = .closed := by
  cases m with
  | input ch =>
    show (s.client.key ch).1.pc = .closed
    simp [Console.key, h]
  | take => simp [Link.step, console, h]
  | lost => simp [Link.step, console, h]
  | serve env => exact h
  | other c => exact h

theorem console_step (h : Console.Inv rng s) (m : LinkMove ℤ) :
    Console.Inv rng (s.step console m) := by
  cases h with
  | closed h => exact .closed (console_closed h m)
  | waits hn h => exact h.step hn m
  | keys h => exact h.step m

end Steps

/-- In every run: at its keys the console shows the match of a waiting worker,
nothing is on its way, and every exchange so far was a whole answer. In
`recv_until` it has read a part of the answer to its request, and once the worker
has made its next four steps there is a packet to read, unless that request was the
login and the worker has refused it. -/
theorem console_lockstep (store : Store) (rng : ℕ → ℕ) (ms : List (LinkMove ℤ)) :
    let s := ms.foldl (Link.step console) (Link.start store rng Console.start)
    (s.client.pc = .keys → s.up = [] ∧ s.down = [] ∧ s.worker.pc = .recv ∧
      s.client.st = s.worker.game.st ∧ s.client.hand = s.worker.game.hand ∧
      s.talk.Each ConsoleAnswer rng) ∧
    (console.waits s.client = true →
      (∀ p read older, s.talk = (p, read) :: older → Request p →
        ∃ more, more ≠ [] ∧ ConsoleAnswer (Talk.game rng older) p (read ++ more)) ∧
      ∀ quiet : List (LinkMove ℤ), (∀ m ∈ quiet, m.quiet = true) →
        4 ≤ (quiet.filter LinkMove.serves).length →
        let s' := quiet.foldl (Link.step console) s
        s'.down ≠ [] ∨ LoginRefused s') := by
  intro s
  have hstart : Console.Inv rng (Link.start store rng Console.start) :=
    .waits (n := 3) (by decide) (.joining (joining_start store rng Console.start))
  have hinv : Console.Inv rng s :=
    Run.foldl_invariant (I := Console.Inv rng) (fun _ m h => console_step h m) ms hstart
  cases hinv with
  | closed h =>
    constructor
    · intro hk
      cases hk.symm.trans h
    · intro hw
      simp [console, h] at hw
  | keys h =>
    refine ⟨fun _ => ⟨h.up, h.down, h.waiting, h.st, h.hand, h.past⟩, fun hw => ?_⟩
    simp [console, h.pc] at hw
  | waits hn h =>
    constructor
    · intro hk
      obtain ⟨a, b, hpc⟩ := h.pc
      cases hpc.symm.trans hk
    · refine fun _ => ⟨fun p read older => h.part, fun quiet hq hlen => ?_⟩
      have hrun := quiet_run (P := console) (W := Console.Waits rng)
        (fun _ _ env _ hw => hw.serve env) (fun _ _ c hw => hw.other c) hq (Run.along_true s quiet) h
      rw [Nat.sub_eq_zero_of_le (hn.trans hlen)] at hrun
      exact hrun.ready

/-- The login, one step of the worker after the other, and all of its answer. -/
def consoleLogin : List (LinkMove ℤ) :=
  [.serve env0, .serve env0, .serve env0, .take, .take, .take, .take]

/-- The key that ends the turn, and the whole exchange. -/
def consoleTurn : List (LinkMove ℤ) :=
  [.input (keyCode 'e'), .serve env0, .serve env0, .serve env0, .serve env0, .take, .take]

theorem console_lockstep_turn :
    let s := (consoleLogin ++ consoleTurn).foldl (Link.step console)
      (Link.start Store.zero (fun _ => 0) Console.start)
    s.client.pc = .keys ∧ s.talk.length = 2 ∧ s.client.st = s.worker.game.st := by
  have hpc : ((consoleLogin ++ consoleTurn).foldl (Link.step console)
      (Link.start Store.zero (fun _ => 0) Console.start)).client.pc = .keys := by decide +kernel
  obtain ⟨_, _, _, hst, _⟩ := (console_lockstep Store.zero (fun _ => 0) _).1 hpc
  exact ⟨hpc, by decide +kernel, hst⟩

end MiniTcg.Client
