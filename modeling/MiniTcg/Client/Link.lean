import MiniTcg.Server.Replies

/-!
# A client and its worker

A client program, the worker that serves it, and the two directions of their
connection, reliable and in order. The client reads from `down`, the worker from
`up`; what a worker sends between two of its steps arrives at once. Other
processes may call the store at any time. `talk` is a history variable: every
packet the client has sent, newest first, with what it has read since.
-/
namespace MiniTcg.Client

open MiniTcg.Game MiniTcg.Ipc MiniTcg.Wire MiniTcg.Server

/-- The size of the payload a message is sent with. -/
def payloadSize : Msg → ℕ
  | .loginResp _ => 4
  | .resumeResp _ _ => 12
  | .pong => 0
  | .state _ => 21 + logLines * logLen
  | .hand _ => 17
  | .error _ _ => 52

theorem payload_le (m : Msg) : payloadSize m ≤ 405 := by
  cases m <;> simp [payloadSize, logLines, logLen]

/-- A client program: its buffer for `proto_recv`, whether it is inside that call
or has closed the connection, what it does with an input of its own, with a
packet, and when `proto_recv` fails. Each gives the packets it sends. -/
structure Program (γ κ : Type) where
  cap : ℕ
  waits : γ → Bool
  closed : γ → Bool
  react : γ → κ → γ × List Packet
  take : γ → Msg → γ × List Packet
  lost : γ → γ × List Packet

abbrev Talk := List (Packet × List Msg)

def Talk.hear : Talk → Msg → Talk
  | [], _ => []
  | (p, ms) :: older, m => (p, ms ++ [m]) :: older

/-- Everything the client has read, oldest first. -/
def Talk.read (t : Talk) : List Msg := (t.reverse.map Prod.snd).flatten

/-- The match the packets of a conversation lead to. -/
def Talk.game (rng : ℕ → ℕ) : Talk → Match
  | [] => origin rng
  | (p, _) :: older =>
    if p.op = opLoginReq then loginGame (Talk.game rng older) else onPacket (Talk.game rng older) p

/-- Each packet and what was read after it are as `E` says for the match the
conversation had led to. -/
def Talk.Each (E : Match → Packet → List Msg → Prop) (rng : ℕ → ℕ) : Talk → Prop
  | [] => True
  | (p, ms) :: older => E (Talk.game rng older) p ms ∧ Talk.Each E rng older

structure Link (γ : Type) where
  store : Store
  worker : Worker
  client : γ
  up : List Packet
  down : List Msg
  talk : Talk

inductive LinkMove (κ : Type)
  | input (k : κ)
  | take
  | lost
  | serve (env : AllocEnv)
  | other (c : Call)

/-- The worker's next step: it reads a packet, learns that the client is `gone`,
waits, or makes its pending call. -/
def serveStep (w : Worker) (s : Store) (up : List Packet) (gone : Bool) (env : AllocEnv) :
    Worker × Store × List Packet :=
  if w.pc.listens then
    match up with
    | p :: ps => (w.onRecv (some p), s, ps)
    | [] => if gone then (w.onRecv none, s, []) else (w, s, [])
  else ((w.onIpc s env).1, (w.onIpc s env).2, up)

section Step
variable {γ κ : Type}

/-- The client goes on as `r` says and sends its packets. -/
def Link.put (s : Link γ) (r : γ × List Packet) : Link γ :=
  { s with
    client := r.1
    up := s.up ++ r.2
    talk := (r.2.map fun p => (p, [])).reverse ++ s.talk }

/-- `proto_recv` fails on a payload that does not fit. -/
def Program.hears (P : Program γ κ) (c : γ) (m : Msg) : γ × List Packet :=
  if payloadSize m ≤ P.cap then P.take c m else P.lost c

def Link.step (P : Program γ κ) (s : Link γ) : LinkMove κ → Link γ
  | .input k => s.put (P.react s.client k)
  | .take =>
    match P.waits s.client, s.down with
    | true, m :: ms => { s with down := ms, talk := s.talk.hear m }.put (P.hears s.client m)
    | _, _ => s
  | .lost => if P.waits s.client then s.put (P.lost s.client) else s
  | .serve env =>
    let r := serveStep s.worker s.store s.up (P.closed s.client) env
    { s with
      worker := r.1
      store := r.2.1
      up := r.2.2
      down := s.down ++ (sent r.1.io).drop (sent s.worker.io).length }
  | .other c => { s with store := (s.store.call c).1 }

/-- A client that has just sent its login, on any store. -/
def Link.start (store : Store) (rng : ℕ → ℕ) (c : γ) : Link γ :=
  ⟨store, Worker.init rng, c, [loginPacket], [], [(loginPacket, [])]⟩

def LinkMove.quiet : LinkMove κ → Bool
  | .serve _ | .other _ => true
  | _ => false

def LinkMove.serves : LinkMove κ → Bool
  | .serve _ => true
  | _ => false

end Step

theorem put_client {γ : Type} (s : Link γ) (c : γ) : s.put (c, []) = { s with client := c } := by
  simp [Link.put]

theorem put_nil {γ : Type} (s : Link γ) : s.put (s.client, []) = s := put_client s s.client

/-! ### The record of a conversation -/

theorem read_hear {t : Talk} (ht : t ≠ []) (m : Msg) : (t.hear m).read = t.read ++ [m] := by
  cases t with
  | nil => exact absurd rfl ht
  | cons e older =>
    obtain ⟨p, ms⟩ := e
    simp [Talk.hear, Talk.read]

theorem hear_ne_nil {t : Talk} (ht : t ≠ []) (m : Msg) : t.hear m ≠ [] := by
  cases t with
  | nil => exact absurd rfl ht
  | cons e older => exact List.cons_ne_nil _ _

theorem asked_hear (t : Talk) (m : Msg) : (t.hear m).map Prod.fst = t.map Prod.fst := by
  cases t with
  | nil => rfl
  | cons e older => rfl

theorem read_cons (p : Packet) (ms : List Msg) (t : Talk) :
    Talk.read ((p, ms) :: t) = t.read ++ ms := by
  simp [Talk.read]

theorem read_eq_of_head {t older : Talk} {p : Packet} {ms : List Msg} (h : t = (p, ms) :: older) :
    t.read = older.read ++ ms := by
  rw [h, read_cons]

/-! ### Requests and their answers -/

/-- The packets the two console clients send after their login. -/
def Request (p : Packet) : Prop := p = ⟨opEndTurn, []⟩ ∨ ∃ idx, p = ⟨opPlayCard, [idx]⟩

/-- At most one message, an `OP_ERROR`. -/
def AtMostError (err : List Msg) : Prop := err = [] ∨ ∃ code msg, err = [Msg.error code msg]

theorem AtMostError.plain {err : List Msg} (h : AtMostError err) : ∀ m ∈ err, Msg.Plain m := by
  rcases h with rfl | ⟨code, msg, rfl⟩
  · exact List.forall_mem_nil _
  · exact List.forall_mem_singleton.mpr ⟨rfl, rfl⟩

theorem playError_error (rc : ℤ) : ∃ code msg, playError rc = .error code msg := by
  unfold playError
  split
  · exact ⟨_, _, rfl⟩
  · split <;> exact ⟨_, _, rfl⟩

theorem request_op {p : Packet} (hp : Request p) : p.op ≠ opPing ∧ p.op ≠ opLoginReq := by
  rcases hp with rfl | ⟨idx, rfl⟩
  · decide
  · show opPlayCard ≠ opPing ∧ opPlayCard ≠ opLoginReq
    decide

/-- A request is answered with the table, after at most one error. -/
theorem reply_request {g : Match} (hi : Idle g.st.toCore) {p : Packet} (hp : Request p) :
    ∃ err, reply g p = err ++ table (onPacket g p) ∧ AtMostError err := by
  have hping : p.op ≠ opPing := (request_op hp).1
  by_cases hover : g.st.gameOver = 0
  · obtain ⟨hturn, _⟩ := hi.resolve_left fun h => h hover
    rcases hp with rfl | ⟨idx, rfl⟩
    · have hplay : opEndTurn ≠ opPlayCard := by decide
      refine ⟨[], ?_, Or.inl rfl⟩
      rw [onPacket_end hover hturn]
      simp only [reply, if_neg hping, hover, ne_eq, not_true_eq_false, if_false, if_neg hplay,
        if_true, List.nil_append]
    · refine ⟨if (handlePlayCard g.st g.hand .player idx).2 = 0 then []
        else [playError (handlePlayCard g.st g.hand .player idx).2], ?_, ?_⟩
      · rw [onPacket_play hi hover]
        simp only [reply, if_neg hping, hover, ne_eq, not_true_eq_false, if_false, if_true]
      · split
        · exact Or.inl rfl
        · obtain ⟨code, msg, he⟩ := playError_error (handlePlayCard g.st g.hand .player idx).2
          rw [he]
          exact Or.inr ⟨code, msg, rfl⟩
  · refine ⟨[], ?_, Or.inl rfl⟩
    rw [onPacket_over hover]
    simp only [reply, if_neg hping, ne_eq, hover, not_false_eq_true, if_true, List.nil_append]

/-! ### A worker with one request -/

/-- The worker has one request to read or to answer; in at most `n` of its steps
it waits with the match `g`, `out` sent in all. -/
inductive Busy (g : Match) (out : List Msg) : ℕ → List Packet → Worker → Prop
  | asked {w : Worker} {p : Packet} (pc : w.pc = .recv) (req : Request p)
      (idle : Idle w.game.st.toCore) (game : onPacket w.game p = g)
      (sent : sent w.io ++ reply w.game p = out) : Busy g out 4 [p] w
  | read {w : Worker} {p : Packet} (pc : w.pc = .touch p) (req : Request p)
      (idle : Idle w.game.st.toCore) (game : onPacket w.game p = g)
      (sent : sent w.io ++ reply w.game p = out) : Busy g out 3 [] w
  | owed {n : ℕ} {w : Worker} (hn : n ≤ 2) (owes : Owes g out n w) : Busy g out n [] w

section Busy
variable {g : Match} {out : List Msg} {n : ℕ} {up : List Packet} {w : Worker}

/-- A listening worker that owes nothing is waiting. -/
theorem Owes.at_listen (h : Owes g out n w) (hl : w.pc.listens = true) : w.pc = .recv := by
  cases h with
  | waiting pc _ _ => exact pc
  | touched pc _ _ _ => rw [pc] at hl; cases hl
  | ending pc _ _ => rw [pc] at hl; cases hl
  | saving pc _ _ _ => rw [pc] at hl; cases hl
  | login pc _ _ => rw [pc] at hl; cases hl

theorem Busy.serve (h : Busy g out n up w) (hi : Idle g.st.toCore) (s : Store) (env : AllocEnv) :
    Busy g out (n - 1) (serveStep w s up false env).2.2 (serveStep w s up false env).1 := by
  cases h with
  | asked pc req idle game hs =>
    simp only [serveStep, pc, Pc.listens, if_true, Worker.onRecv]
    exact .read rfl req idle game hs
  | @read _ p pc req idle game hs =>
    simp only [serveStep, pc, Pc.listens, Bool.false_eq_true, if_false, Worker.onIpc]
    rw [← hs, ← game]
    exact .owed (Nat.le_refl 2)
      (owes_dispatch (n := 0) (w := ⟨.touch p, w.mySid, w.game, .got p :: w.io⟩) idle)
  | owed hn howes =>
    by_cases hl : w.pc.listens = true
    · have hpc := Owes.at_listen howes hl
      obtain ⟨hgame, hsent⟩ := howes.at_recv hpc
      simp only [serveStep, hl, if_true, Bool.false_eq_true, if_false]
      exact .owed (by omega) (.waiting hpc hgame hsent)
    · simp only [serveStep, hl]
      cases n with
      | zero => exact absurd (by rw [howes.done]; rfl) hl
      | succ k => exact .owed (by omega) (howes.step hi s env)

theorem Busy.done (h : Busy g out 0 up w) :
    up = [] ∧ w.pc = .recv ∧ w.game = g ∧ sent w.io = out := by
  cases h with
  | owed _ howes =>
    obtain ⟨hgame, hsent⟩ := howes.at_recv howes.done
    exact ⟨rfl, howes.done, hgame, hsent⟩

theorem table_length (g : Match) : (table g).length = 2 := rfl

/-- The table is sent last and at once: a worker that has sent all but one packet
has sent everything. -/
theorem Busy.all_sent (h : Busy g out n up w) (hlen : out.length < (sent w.io).length + 2) :
    up = [] ∧ w.pc = .recv ∧ w.game = g ∧ sent w.io = out := by
  have hreq : ∀ p, Request p → Idle w.game.st.toCore → sent w.io ++ reply w.game p = out → False := by
    intro p req idle hs
    obtain ⟨err, hr, _⟩ := reply_request idle req
    rw [← hs, hr, List.length_append, List.length_append, table_length] at hlen
    omega
  cases h with
  | asked pc req idle game hs => exact (hreq _ req idle hs).elim
  | read pc req idle game hs => exact (hreq _ req idle hs).elim
  | owed hn howes =>
    cases howes with
    | waiting pc game hs => exact ⟨rfl, pc, game, hs⟩
    | touched => omega
    | ending pc game hs =>
      rw [← hs, List.length_append, table_length] at hlen
      omega
    | saving pc last game hs =>
      rw [← hs, List.length_append, table_length] at hlen
      omega
    | login pc game hs =>
      rw [← hs, List.length_append, List.length_append, table_length] at hlen
      omega

theorem Busy.sent_of_out (h : Busy g out n up w) : sent w.io <+: out := by
  cases h with
  | asked pc req idle game hs => exact hs ▸ List.prefix_append _ _
  | read pc req idle game hs => exact hs ▸ List.prefix_append _ _
  | owed hn howes => exact howes.sent_of_out

end Busy

/-! ### A client in an exchange -/

section Exchange
variable {γ κ : Type} {P : Program γ κ}

/-- The client reads all of the list inside `proto_recv` calls, sends nothing
before its last packet, and then goes on as `r` says. -/
inductive Feeds (P : Program γ κ) : γ → List Msg → γ × List Packet → Prop
  | last {c : γ} {m : Msg} {r : γ × List Packet} (waits : P.waits c = true)
      (hears : P.hears c m = r) : Feeds P c [m] r
  | more {c c' : γ} {m : Msg} {ms : List Msg} {r : γ × List Packet} (waits : P.waits c = true)
      (hears : P.hears c m = (c', [])) (rest : Feeds P c' ms r) : Feeds P c (m :: ms) r

theorem Feeds.waits {c : γ} {ms : List Msg} {r : γ × List Packet} (h : Feeds P c ms r) :
    P.waits c = true := by
  cases h with
  | last waits _ => exact waits
  | more waits _ _ => exact waits

theorem Feeds.ne_nil {c : γ} {ms : List Msg} {r : γ × List Packet} (h : Feeds P c ms r) :
    ms ≠ [] := by
  cases h with
  | last => exact List.cons_ne_nil _ _
  | more => exact List.cons_ne_nil _ _

/-- How an exchange goes: its packet and what was said before it, what the client
reads in it and what it leaves unread, the match after it, and how the client
goes on. -/
structure Exchange (γ : Type) where
  packet : Packet
  older : Talk
  whole : List Msg
  left : List Msg
  game : Match
  next : γ × List Packet

/-- The link is in the exchange `x`. -/
structure Talking (P : Program γ κ) (x : Exchange γ) (n : ℕ) (s : Link γ) : Prop where
  idle : Idle x.game.st.toCore
  stream : sent s.worker.io = s.talk.read ++ s.down
  rest : ∃ ms rest, s.talk = (x.packet, ms) :: x.older ∧ ms ++ rest = x.whole ∧
    Feeds P s.client rest x.next ∧
    Busy x.game (s.talk.read ++ (rest ++ x.left)) n s.up s.worker

variable {x : Exchange γ} {n : ℕ} {s : Link γ}

theorem Talking.waits (h : Talking P x n s) : P.waits s.client = true := by
  obtain ⟨_, _, _, _, hfeeds, _⟩ := h.rest
  exact hfeeds.waits

/-- What a step of the worker sends goes to the end of `down`. -/
theorem sent_step {w w' : Worker} (h : w.io <:+ w'.io) :
    sent w'.io = sent w.io ++ (sent w'.io).drop (sent w.io).length := by
  obtain ⟨l, hl⟩ := h
  have hpre : sent w.io <+: sent w'.io := by
    unfold sent
    rw [← hl, List.filterMap_append, List.reverse_append]
    exact List.prefix_append _ _
  obtain ⟨more, hmore⟩ := hpre
  rw [← hmore, List.drop_left]

theorem serveStep_io (w : Worker) (s : Store) (up : List Packet) (gone : Bool) (env : AllocEnv) :
    w.io <:+ (serveStep w s up gone env).1.io := by
  unfold serveStep
  split
  · split
    · exact onRecv_io w _
    · split
      · exact onRecv_io w _
      · exact List.suffix_refl _
  · exact onIpc_io w s env

theorem Talking.serve (h : Talking P x n s) (hopen : P.closed s.client = false) (env : AllocEnv) :
    Talking P x (n - 1) (s.step P (.serve env)) := by
  obtain ⟨ms, rest, htalk, hwhole, hfeeds, hbusy⟩ := h.rest
  simp only [Link.step, hopen]
  refine ⟨h.idle, ?_, ms, rest, htalk, hwhole, hfeeds, hbusy.serve h.idle s.store env⟩
  rw [← List.append_assoc, ← h.stream]
  exact sent_step (serveStep_io _ _ _ _ _)

theorem Talking.other (h : Talking P x n s) (c : Call) : Talking P x n (s.step P (.other c)) :=
  ⟨h.idle, h.stream, h.rest⟩

/-- Reading a packet continues the exchange or ends it; when it ends, the worker
waits and the client's next packets are the only ones on their way. -/
theorem Talking.take (h : Talking P x n s) (hleft : x.left.length ≤ 1) {m : Msg} {ds : List Msg}
    (hd : s.down = m :: ds) :
    Talking P x n (s.step P .take) ∨
      (s.worker.pc = .recv ∧ s.worker.game = x.game ∧
        sent s.worker.io = x.older.read ++ x.whole ++ x.left ∧
        s.step P .take = ⟨s.store, s.worker, x.next.1, x.next.2, x.left,
          (x.next.2.map fun p => (p, [])).reverse ++ (x.packet, x.whole) :: x.older⟩) := by
  obtain ⟨ms, rest, htalk, hwhole, hfeeds, hbusy⟩ := h.rest
  have hread := read_eq_of_head htalk
  have hstream := h.stream
  rw [hd] at hstream
  -- the packet at the head of `down` is the next one of the plan
  have hhead : ∃ rest', rest = m :: rest' := by
    have hpre := hbusy.sent_of_out
    rw [hstream, List.prefix_append_right_inj] at hpre
    cases rest with
    | nil => exact absurd rfl hfeeds.ne_nil
    | cons m' rest' =>
      rw [List.cons_append, List.cons_prefix_cons] at hpre
      exact ⟨rest', by rw [hpre.1]⟩
  obtain ⟨rest', rfl⟩ := hhead
  have hhear : s.talk.hear m = (x.packet, ms ++ [m]) :: x.older := by rw [htalk]; rfl
  have hstep : s.step P .take =
      { s with down := ds, talk := (x.packet, ms ++ [m]) :: x.older }.put (P.hears s.client m) := by
    simp only [Link.step, hfeeds.waits, hd, hhear]
  cases hfeeds with
  | more waits hears hmore =>
    left
    rw [hstep, hears]
    refine ⟨h.idle, ?_, ms ++ [m], rest', ?_, ?_, hmore, ?_⟩
    · show sent s.worker.io = Talk.read ((x.packet, ms ++ [m]) :: x.older) ++ ds
      rw [hstream, hread, read_cons]
      simp
    · rfl
    · rw [List.append_assoc]
      exact hwhole
    · have hplan : Talk.read ((x.packet, ms ++ [m]) :: x.older) ++ (rest' ++ x.left) =
          s.talk.read ++ (m :: rest' ++ x.left) := by
        rw [read_cons, hread]
        simp
      show Busy x.game (Talk.read ((x.packet, ms ++ [m]) :: x.older) ++ (rest' ++ x.left)) n
        (s.up ++ []) s.worker
      rw [hplan, List.append_nil]
      exact hbusy
  | last waits hears =>
    right
    have hlen : (s.talk.read ++ ([m] ++ x.left)).length < (sent s.worker.io).length + 2 := by
      rw [hstream]
      simp only [List.length_append, List.length_cons, List.length_nil]
      omega
    obtain ⟨hup, hpc, hgame, hall⟩ := hbusy.all_sent hlen
    have hds : ds = x.left := by
      rw [hstream] at hall
      simpa using hall
    refine ⟨hpc, hgame, ?_, ?_⟩
    · rw [hall, hread, ← hwhole]
      simp
    · rw [hstep, hears, Link.put, hup, hds, hwhole]
      rfl

/-- When the worker has made its steps, there is a packet to read. -/
theorem Talking.ready (h : Talking P x 0 s) : s.down ≠ [] := by
  obtain ⟨ms, rest, _, _, hfeeds, hbusy⟩ := h.rest
  obtain ⟨_, _, _, hall⟩ := hbusy.done
  rw [h.stream, List.append_cancel_left_eq] at hall
  rw [hall]
  intro hnil
  exact hfeeds.ne_nil (List.append_eq_nil_iff.mp hnil).1

/-- A new exchange: a waiting worker with the match `g` is sent a request, and
`left` is still to be read. -/
theorem talking_ask {g : Match} (hpc : s.worker.pc = .recv) (hgame : s.worker.game = g)
    (hidle : Idle g.st.toCore) (hreq : Request x.packet) (hup : s.up = [x.packet])
    (htalk : s.talk = (x.packet, []) :: x.older)
    (hsent : sent s.worker.io = x.older.read ++ s.down)
    (hplan : s.down ++ reply g x.packet = x.whole ++ x.left) (hafter : x.game = onPacket g x.packet)
    (hfeeds : Feeds P s.client x.whole x.next) : Talking P x 4 s := by
  have hread : s.talk.read = x.older.read := by rw [htalk, read_cons, List.append_nil]
  refine ⟨?_, ?_, [], x.whole, htalk, rfl, hfeeds, ?_⟩
  · rw [hafter]
    exact (onPacket_steps hidle x.packet).2
  · rw [hsent, hread]
  · rw [hup]
    refine .asked hpc hreq (hgame ▸ hidle) (hgame ▸ hafter.symm) ?_
    rw [hsent, hread, hgame, List.append_assoc, hplan]

/-! ### The login -/

/-- What an accepted login is answered with. -/
def welcome (sid : UInt64) (g : Match) : List Msg := [.loginResp 1, .resumeResp 1 sid] ++ table g

/-- The login is on its way, or waits for its slot; the client `c` has read
nothing. -/
structure Joining (rng : ℕ → ℕ) (c : γ) (n : ℕ) (s : Link γ) : Prop where
  client : s.client = c
  down : s.down = []
  talk : s.talk = [(loginPacket, [])]
  io : s.worker.io = []
  stage : (n = 3 ∧ s.up = [loginPacket] ∧ s.worker = Worker.init rng) ∨
    (n = 2 ∧ s.up = [] ∧ s.worker.pc = .alloc (origin rng) ∧
      s.worker.game = loginGame (origin rng))

/-- The login was answered with an error and the worker has exited. -/
structure Refused (c : γ) (s : Link γ) : Prop where
  client : s.client = c
  asked : s.talk.map Prod.fst = [loginPacket]
  exited : s.worker.pc = .closed
  answer : sent s.worker.io = [.error (-999) "server full"]
  down : ∀ m ∈ s.down, m = .error (-999) "server full"

theorem joining_start (store : Store) (rng : ℕ → ℕ) (c : γ) :
    Joining rng c 3 (Link.start store rng c) :=
  ⟨rfl, rfl, rfl, rfl, Or.inl ⟨rfl, rfl, rfl⟩⟩

theorem login_idle (rng : ℕ → ℕ) : Idle (loginGame (origin rng)).st.toCore :=
  (playout_reachable rng []).2

/-- The worker reads the login; then it refuses it, or the exchange of an
accepted login begins. -/
theorem Joining.serve {rng : ℕ → ℕ} {c : γ} (h : Joining rng c n s) (env : AllocEnv) :
    Joining rng c (n - 1) (s.step P (.serve env)) ∨
      (s.worker.pc = .alloc (origin rng) ∧ (ipcAllocSession s.store env).2 = 0 ∧
        Refused c (s.step P (.serve env))) ∨
      ∃ sid, ∀ x : Exchange γ, x.packet = loginPacket → x.older = [] →
        x.game = loginGame (origin rng) → x.whole ++ x.left = welcome sid x.game →
        Feeds P c x.whole x.next → Talking P x (n - 1) (s.step P (.serve env)) := by
  obtain ⟨hclient, hdown, htalk, hio, ⟨rfl, hup, hw⟩ | ⟨rfl, hup, hpc, hgame⟩⟩ := h
  · left
    simp only [Link.step, hup, hw, serveStep, Worker.init, Pc.listens, if_true]
    refine ⟨hclient, ?_, htalk, rfl, Or.inr ⟨rfl, rfl, rfl, rfl⟩⟩
    show s.down ++ [] = []
    rw [hdown, List.append_nil]
  · right
    simp only [Link.step, serveStep, hpc, Pc.listens, Bool.false_eq_true, if_false, Worker.onIpc,
      hio]
    by_cases hz : (ipcAllocSession s.store env).2 = 0
    · left
      simp only [if_pos hz]
      have hsent : sent (s.worker.send (.error (-999) "server full")).close.io =
          [.error (-999) "server full"] := by
        show sent (.sent _ :: s.worker.io) = _
        rw [hio]
        rfl
      refine ⟨trivial, hz, hclient, by rw [htalk]; rfl, rfl, hsent, ?_⟩
      rw [hdown, hsent]
      exact fun m hm => List.mem_singleton.mp hm
    · right
      simp only [if_neg hz]
      refine ⟨(ipcAllocSession s.store env).2, fun x hp holder hg hplan hfeeds => ?_⟩
      refine ⟨hg ▸ login_idle rng, ?_, [], x.whole, ?_, rfl, hclient ▸ hfeeds, ?_⟩
      · rw [hdown, htalk]
        rfl
      · rw [htalk, hp, holder]
      · rw [htalk, hplan, hup]
        refine .owed (by omega) (.login rfl ?_ ?_)
        · exact hgame.trans hg.symm
        · rfl

theorem Joining.other {rng : ℕ → ℕ} {c : γ} (h : Joining rng c n s) (k : Call) :
    Joining rng c n (s.step P (.other k)) := ⟨h.client, h.down, h.talk, h.io, h.stage⟩

theorem Refused.serve {c : γ} (h : Refused c s) (env : AllocEnv) :
    Refused c (s.step P (.serve env)) := by
  obtain ⟨hclient, hasked, hpc, hanswer, hdown⟩ := h
  have hsame : (s.step P (.serve env)).worker = s.worker := by
    simp [Link.step, serveStep, hpc, Pc.listens, Worker.onIpc]
  refine ⟨hclient, hasked, ?_, ?_, ?_⟩
  · rw [hsame]
    exact hpc
  · rw [hsame]
    exact hanswer
  · simp only [Link.step, serveStep, hpc, Pc.listens, Bool.false_eq_true, if_false, Worker.onIpc,
      List.drop_length, List.append_nil]
    exact hdown

/-- A waiting worker that is sent nothing waits on. -/
theorem serve_waiting (hpc : s.worker.pc = .recv) (hup : s.up = []) (hopen : P.closed s.client = false)
    (env : AllocEnv) : s.step P (.serve env) = s := by
  obtain ⟨store, w, c, up, down, talk⟩ := s
  simp only at hpc hup hopen
  subst hup
  simp [Link.step, serveStep, hpc, hopen, Pc.listens]

/-! ### While the client only waits -/

/-- What the worker's steps count down and the calls of others leave alone, after
a run of such moves. -/
theorem quiet_run {W : ℕ → Link γ → Prop} {C : Link γ → LinkMove κ → Prop}
    (hserve : ∀ n s env, C s (.serve env) → W n s → W (n - 1) (s.step P (.serve env)))
    (hother : ∀ n s c, W n s → W n (s.step P (.other c))) {ms : List (LinkMove κ)}
    (hq : ∀ m ∈ ms, m.quiet = true) (hc : Run.Along (Link.step P) C s ms) (h : W n s) :
    W (n - (ms.filter LinkMove.serves).length) (ms.foldl (Link.step P) s) := by
  induction ms generalizing n s with
  | nil => exact h
  | cons m ms ih =>
    obtain ⟨hm, hms⟩ := List.forall_mem_cons.mp hq
    cases m with
    | input k => cases hm
    | take => cases hm
    | lost => cases hm
    | serve env =>
      have hrun := ih hms hc.2 (hserve n s env hc.1 h)
      rw [Nat.sub_sub, Nat.add_comm] at hrun
      exact hrun
    | other c => exact ih hms hc.2 (hother n s c h)

end Exchange

end MiniTcg.Client
