import MiniTcg.Client.Link

/-!
# The benchmark client

The `worker` thread of the benchmark, against a server worker. Its login stops
reading at the first state, so that from then on every wait loop begins with the
hand of the exchange before and ends with the state of its own: one hand stays
unread, never more, until the last round.
-/
namespace MiniTcg.Client

open MiniTcg.Game MiniTcg.Ipc MiniTcg.Wire MiniTcg.Server

/-- The `proto_recv` calls: the first one of the login, those until a state is
there, and the two wait loops of round `i`. -/
inductive BenchPc
  | first
  | login
  | play (i : ℕ) (seenState seenHand : Bool)
  | ending (i : ℕ) (seenState seenHand : Bool)
  | done
  deriving DecidableEq

structure Bench where
  idx : ℕ
  rounds : ℤ
  pc : BenchPc

def Bench.start (idx : ℕ) (rounds : ℤ) : Bench := ⟨idx, rounds, .first⟩

def Bench.goto (b : Bench) (pc : BenchPc) : Bench := { b with pc := pc }

/-- The head of the rounds loop. -/
def Bench.round (b : Bench) (i : ℕ) : Bench × List Packet :=
  if (i : ℤ) < b.rounds then (b.goto (.play i false false), [⟨opPlayCard, [0]⟩])
  else (b.goto .done, [])

/-- Between the two wait loops. -/
def Bench.endTurn (b : Bench) (i : ℕ) : Bench × List Packet :=
  (b.goto (.ending i false false), [⟨opEndTurn, []⟩])

/-- `while (!got_state)` with the packet just read. -/
def Bench.untilState (b : Bench) : Msg → Bench × List Packet
  | .state _ => b.round 0
  | _ => (b.goto .login, [])

/-- One pass of a wait loop: a finished game ends the run of the first worker. -/
def Bench.wait (b : Bench) (seenState seenHand : Bool) (again : Bool → Bool → BenchPc)
    (next : Bench × List Packet) (m : Msg) : Bench × List Packet :=
  match m with
  | .state st =>
    if b.idx = 0 ∧ st.gameOver ≠ 0 then (b.goto .done, [])
    else if seenHand then next
    else (b.goto (again true seenHand), [])
  | .hand _ => if seenState then next else (b.goto (again seenState true), [])
  | _ => (b.goto (again seenState seenHand), [])

def Bench.take (b : Bench) (m : Msg) : Bench × List Packet :=
  match b.pc with
  | .first =>
    match m with
    | .loginResp _ => (b.goto .login, [])
    | _ => b.untilState m
  | .login => b.untilState m
  | .play i seenState seenHand => b.wait seenState seenHand (.play i) (b.endTurn i) m
  | .ending i seenState seenHand => b.wait seenState seenHand (.ending i) (b.round (i + 1)) m
  | .done => (b, [])

/-- A failed `proto_recv` ends the login, but only the wait loop it is in. -/
def Bench.lost (b : Bench) : Bench × List Packet :=
  match b.pc with
  | .first | .login | .done => (b.goto .done, [])
  | .play i _ _ => b.endTurn i
  | .ending i _ _ => b.round (i + 1)

def bench : Program Bench Empty where
  cap := 1024
  waits b := b.pc ≠ .done
  closed b := b.pc = .done
  react _ k := nomatch k
  take := Bench.take
  lost := Bench.lost

/-! ### What a wait loop reads -/

theorem bench_hears (b : Bench) (m : Msg) : bench.hears b m = b.take m :=
  if_pos ((payload_le m).trans (by decide))

/-- The bench has just sent `p` and is at the top of the wait loop for it. -/
def Bench.Asks (b : Bench) (p : Packet) : Prop :=
  (∃ i, b.pc = .play i false false ∧ p = ⟨opPlayCard, [0]⟩) ∨
    ∃ i, b.pc = .ending i false false ∧ p = ⟨opEndTurn, []⟩

theorem Bench.Asks.request {b : Bench} {p : Packet} (h : b.Asks p) : Request p := by
  rcases h with ⟨_, _, hp⟩ | ⟨_, _, hp⟩
  · exact Or.inr ⟨0, hp⟩
  · exact Or.inl hp

/-- After an exchange the bench is done or has sent its next request. -/
def Bench.GoesOn (r : Bench × List Packet) : Prop :=
  (r.1.pc = .done ∧ r.2 = []) ∨ ∃ p, r.2 = [p] ∧ r.1.Asks p

theorem round_goesOn (b : Bench) (i : ℕ) : Bench.GoesOn (b.round i) := by
  unfold Bench.round
  split
  · exact Or.inr ⟨_, rfl, Or.inl ⟨i, rfl, rfl⟩⟩
  · exact Or.inl ⟨rfl, rfl⟩

theorem endTurn_goesOn (b : Bench) (i : ℕ) : Bench.GoesOn (b.endTurn i) :=
  Or.inr ⟨_, rfl, Or.inr ⟨i, rfl, rfl⟩⟩

theorem bench_waits {b : Bench} (h : b.pc ≠ .done) : bench.waits b = true := decide_eq_true h

section Wait
variable {b : Bench} (again : Bool → Bool → BenchPc) (next : Bench × List Packet)

/-- A wait loop that starts with an unread hand ends with the next state. -/
theorem wait_feeds (hagain : ∀ x y, again x y ≠ .done)
    (htake : ∀ x y m, (b.goto (again x y)).take m = b.wait x y again next m)
    (hnext : Bench.GoesOn next) (hand : Hand) {err : List Msg} (herr : ∀ m ∈ err, Msg.Plain m)
    (st : State) :
    ∃ r, Bench.GoesOn r ∧
      Feeds bench (b.goto (again false false)) (.hand hand :: (err ++ [.state st])) r := by
  have hwaits : ∀ x y, bench.waits (b.goto (again x y)) = true := fun x y => bench_waits (hagain x y)
  have hhears : ∀ x y m, bench.hears (b.goto (again x y)) m = b.wait x y again next m := fun x y m =>
    (bench_hears _ m).trans (htake x y m)
  refine ⟨b.wait false true again next (.state st), ?_, ?_⟩
  · unfold Bench.wait
    simp only [if_true]
    split
    · exact Or.inl ⟨rfl, rfl⟩
    · exact hnext
  · refine .more (hwaits _ _) (hhears false false (.hand hand)) ?_
    show Feeds bench (b.goto (again false true)) _ _
    induction err with
    | nil => exact .last (hwaits _ _) (hhears false true (.state st))
    | cons m err ih =>
      obtain ⟨hm, hrest⟩ := List.forall_mem_cons.mp herr
      have hskip : b.wait false true again next m = (b.goto (again false true), []) := by
        cases m with
        | state st => exact absurd hm.1 nofun
        | hand hand => exact absurd hm.2 nofun
        | loginResp ok => rfl
        | resumeResp ok sid => rfl
        | pong => rfl
        | error code msg => rfl
      exact .more (hwaits _ _) ((hhears false true m).trans hskip) (ih hrest)

end Wait

theorem Bench.Asks.feeds {b : Bench} {p : Packet} (h : b.Asks p) (hand : Hand) {err : List Msg}
    (herr : AtMostError err) (st : State) :
    ∃ r, Bench.GoesOn r ∧ Feeds bench b (.hand hand :: (err ++ [.state st])) r := by
  rcases h with ⟨i, hpc, _⟩ | ⟨i, hpc, _⟩
  · have hb : b = b.goto (.play i false false) := by rw [← hpc]; rfl
    rw [hb]
    exact wait_feeds (.play i) (b.endTurn i) nofun (fun _ _ _ => rfl) (endTurn_goesOn b i) hand
      herr.plain st
  · have hb : b = b.goto (.ending i false false) := by rw [← hpc]; rfl
    rw [hb]
    exact wait_feeds (.ending i) (b.round (i + 1)) nofun (fun _ _ _ => rfl)
      (round_goesOn b (i + 1)) hand herr.plain st

theorem login_feeds (idx : ℕ) (rounds : ℤ) (sid : UInt64) (st : State) :
    Feeds bench (Bench.start idx rounds) [.loginResp 1, .resumeResp 1 sid, .state st]
      ((Bench.start idx rounds).round 0) := by
  have hlogin : bench.waits ((Bench.start idx rounds).goto .login) = true := rfl
  exact .more rfl (bench_hears _ _) (.more hlogin (bench_hears _ _) (.last hlogin (bench_hears _ _)))

/-! ### The joint invariant -/

/-- What a wait reads when it is over: the login up to its state; after that the
hand of the exchange before, then the server's reply to this very request up to
its state. -/
def BenchAnswer (g : Match) (p : Packet) (ms : List Msg) : Prop :=
  (p = loginPacket ∧ ∃ sid, ms ++ [.hand (loginGame g).hand] = welcome sid (loginGame g)) ∨
    (Request p ∧ ∃ err, AtMostError err ∧ reply g p = err ++ table (onPacket g p) ∧
      ms = .hand g.hand :: (err ++ [.state (onPacket g p).st]))

/-- A reliable connection on which the login is accepted. -/
def Smooth (s : Link Bench) : LinkMove Empty → Prop
  | .lost => False
  | .serve env => s.worker.pc.allocates = true → (ipcAllocSession s.store env).2 ≠ 0
  | _ => True

instance (s : Link Bench) : (m : LinkMove Empty) → Decidable (Smooth s m)
  | .input k => nomatch k
  | .take => isTrue trivial
  | .lost => isFalse id
  | .serve _ => inferInstanceAs (Decidable (_ → _))
  | .other _ => isTrue trivial

/-- If the step sends a request, the worker waits for it, and one packet is
unread, the hand of the worker's match. -/
def OneUnread (s : Link Bench) (m : LinkMove Empty) : Prop :=
  let s' := s.step bench m
  s.talk.length < s'.talk.length →
    s'.down = [.hand s'.worker.game.hand] ∧ s'.worker.pc = .recv ∧
      ∃ p, Request p ∧ s'.up = [p]

structure Bench.Plan (rng : ℕ → ℕ) (x : Exchange Bench) : Prop where
  left : x.left = [.hand x.game.hand]
  next : Bench.GoesOn x.next
  game : x.game = Talk.game rng ((x.packet, x.whole) :: x.older)
  answer : BenchAnswer (Talk.game rng x.older) x.packet x.whole
  past : Talk.Each BenchAnswer rng x.older

/-- Inside a `proto_recv`. -/
inductive Bench.Waits (rng : ℕ → ℕ) (b : Bench) (n : ℕ) (s : Link Bench) : Prop
  | joining (h : Joining rng b n s)
  | talking {x : Exchange Bench} (plan : Bench.Plan rng x) (h : Talking bench x n s)

inductive Bench.Inv (rng : ℕ → ℕ) (b : Bench) (s : Link Bench) : Prop
  | done (h : s.client.pc = .done) (past : s.talk.Each BenchAnswer rng)
  | waits {n : ℕ} (hn : n ≤ 4) (h : Bench.Waits rng b n s)

section Steps
variable {rng : ℕ → ℕ} {idx : ℕ} {rounds : ℤ} {n : ℕ} {s : Link Bench}

theorem Bench.Waits.not_done (h : Bench.Waits rng (Bench.start idx rounds) n s) :
    s.client.pc ≠ .done := by
  cases h with
  | joining h =>
    rw [h.client]
    exact nofun
  | talking plan h => exact of_decide_eq_true h.waits

theorem Bench.Waits.serve (h : Bench.Waits rng (Bench.start idx rounds) n s) {env : AllocEnv}
    (hs : Smooth s (.serve env)) :
    Bench.Waits rng (Bench.start idx rounds) (n - 1) (s.step bench (.serve env)) := by
  have hopen : bench.closed s.client = false := decide_eq_false h.not_done
  cases h with
  | talking plan h => exact .talking plan (h.serve hopen env)
  | joining h =>
    rcases h.serve (P := bench) env with hj | ⟨hpc, hz, _⟩ | ⟨sid, hacc⟩
    · exact .joining hj
    · exact absurd hz (hs (by rw [hpc]; rfl))
    · let g := loginGame (origin rng)
      let x : Exchange Bench := ⟨loginPacket, [], [.loginResp 1, .resumeResp 1 sid, .state g.st],
        [.hand g.hand], g, (Bench.start idx rounds).round 0⟩
      have hplan : Bench.Plan rng x :=
        ⟨rfl, round_goesOn _ 0, rfl, Or.inl ⟨rfl, sid, rfl⟩, trivial⟩
      exact .talking hplan (hacc x rfl rfl rfl rfl (login_feeds idx rounds sid g.st))

theorem Bench.Waits.other {b : Bench} (h : Bench.Waits rng b n s) (c : Call) :
    Bench.Waits rng b n (s.step bench (.other c)) := by
  cases h with
  | joining h => exact .joining (h.other c)
  | talking plan h => exact .talking plan (h.other c)

/-- The exchange of the next request: it starts with the hand left unread. -/
theorem talking_next {g : Match} {p : Packet} {older : Talk} (hp : s.client.Asks p)
    (hpc : s.worker.pc = .recv) (hgame : s.worker.game = g) (hidle : Idle g.st.toCore)
    (hg : g = Talk.game rng older) (hpast : Talk.Each BenchAnswer rng older) (hup : s.up = [p])
    (hdown : s.down = [.hand g.hand]) (htalk : s.talk = (p, []) :: older)
    (hsent : sent s.worker.io = older.read ++ s.down) : Bench.Waits rng (Bench.start idx rounds) 4 s := by
  have hreq := hp.request
  obtain ⟨err, hr, herr⟩ := reply_request hidle hreq
  let g' := onPacket g p
  obtain ⟨r, hon, hfeeds⟩ := hp.feeds g.hand herr g'.st
  let x : Exchange Bench :=
    ⟨p, older, .hand g.hand :: (err ++ [.state g'.st]), [.hand g'.hand], g', r⟩
  have hafter : g' = Talk.game rng ((p, .hand g.hand :: (err ++ [.state g'.st])) :: older) := by
    show g' = if p.op = opLoginReq then _ else onPacket (Talk.game rng older) p
    rw [if_neg (request_op hreq).2, ← hg]
  have hplan : Bench.Plan rng x := by
    refine ⟨rfl, hon, hafter, Or.inr ⟨hreq, err, herr, ?_, ?_⟩, hpast⟩
    · rw [← hg]
      exact hr
    · rw [← hg]
  refine .talking hplan (talking_ask hpc hgame hidle hreq hup htalk hsent ?_ rfl hfeeds)
  rw [hdown, hr]
  simp [x, table, g']

theorem Bench.Waits.take (h : Bench.Waits rng (Bench.start idx rounds) n s) (hn : n ≤ 4) :
    Bench.Inv rng (Bench.start idx rounds) (s.step bench .take) ∧ OneUnread s .take := by
  cases hd : s.down with
  | nil =>
    have hsame : s.step bench .take = s := by simp [Link.step, hd]
    unfold OneUnread
    rw [hsame]
    exact ⟨.waits hn h, fun hlt => absurd hlt (Nat.lt_irrefl _)⟩
  | cons m ds =>
    cases h with
    | joining h =>
      rw [h.down] at hd
      cases hd
    | @talking x plan h =>
      have hleft : x.left.length ≤ 1 := by rw [plan.left]; exact Nat.le_refl 1
      rcases h.take hleft hd with ht | ⟨hpc, hgame, hsent, hstep⟩
      · refine ⟨.waits hn (.talking plan ht), fun hlt => ?_⟩
        obtain ⟨_, _, htalk, _⟩ := h.rest
        obtain ⟨_, _, htalk', _⟩ := ht.rest
        rw [htalk, htalk'] at hlt
        exact absurd hlt (Nat.lt_irrefl _)
      · have hpast : Talk.Each BenchAnswer rng ((x.packet, x.whole) :: x.older) :=
          ⟨plan.answer, plan.past⟩
        unfold OneUnread
        rw [hstep, plan.left]
        rcases plan.next with ⟨hdone, hnone⟩ | ⟨p, hp, hasks⟩
        · rw [hnone]
          refine ⟨.done hdone hpast, fun hlt => ?_⟩
          obtain ⟨_, _, htalk, _⟩ := h.rest
          rw [htalk] at hlt
          exact absurd hlt (Nat.lt_irrefl _)
        · rw [hp]
          refine ⟨.waits (Nat.le_refl 4) (talking_next hasks hpc hgame h.idle plan.game hpast rfl rfl
            rfl ?_), fun _ => ⟨?_, hpc, p, hasks.request, rfl⟩⟩
          · show sent s.worker.io = _ ++ [.hand x.game.hand]
            rw [hsent, plan.left, read_cons]
          · show [Msg.hand x.game.hand] = [.hand s.worker.game.hand]
            rw [hgame]

theorem bench_step (h : Bench.Inv rng (Bench.start idx rounds) s) (m : LinkMove Empty)
    (hs : Smooth s m) :
    Bench.Inv rng (Bench.start idx rounds) (s.step bench m) ∧ OneUnread s m := by
  have hquiet : ∀ {s' : Link Bench}, s'.talk = s.talk → s.talk.length < s'.talk.length → False := by
    intro s' ht hlt
    rw [ht] at hlt
    exact Nat.lt_irrefl _ hlt
  cases m with
  | input k => exact nomatch k
  | lost => exact hs.elim
  | take =>
    cases h with
    | waits hn h => exact h.take hn
    | done h past =>
      have hsame : s.step bench .take = s := by simp [Link.step, bench, h]
      unfold OneUnread
      rw [hsame]
      exact ⟨.done h past, fun hlt => (hquiet rfl hlt).elim⟩
  | serve env =>
    refine ⟨?_, fun hlt => (hquiet rfl hlt).elim⟩
    cases h with
    | done h past => exact .done h past
    | waits hn h => exact .waits (by omega) (h.serve hs)
  | other c =>
    refine ⟨?_, fun hlt => (hquiet rfl hlt).elim⟩
    cases h with
    | done h past => exact .done h past
    | waits hn h => exact .waits hn (h.other c)

/-- The bench has read a part of what its wait will read. -/
theorem Bench.Waits.part {b : Bench} (h : Bench.Waits rng b n s) :
    ∃ p read, ∃ older : Talk, s.talk = (p, read) :: older ∧ older.Each BenchAnswer rng ∧
      (Request p → ∃ more, more ≠ [] ∧ BenchAnswer (Talk.game rng older) p (read ++ more)) := by
  cases h with
  | joining h =>
    refine ⟨loginPacket, [], [], h.talk, trivial, fun hp => ?_⟩
    exact absurd rfl (request_op hp).2
  | @talking x plan h =>
    obtain ⟨ms, rest, htalk, hwhole, hfeeds, _⟩ := h.rest
    refine ⟨x.packet, ms, x.older, htalk, plan.past, fun _ => ⟨rest, hfeeds.ne_nil, ?_⟩⟩
    rw [hwhole]
    exact plan.answer

theorem Bench.Waits.ready {b : Bench} (h : Bench.Waits rng b 0 s) : s.down ≠ [] := by
  cases h with
  | joining h =>
    rcases h.stage with ⟨hn, _⟩ | ⟨hn, _⟩
    · omega
    · omega
  | talking plan h => exact h.ready

end Steps

/-- In every run on a reliable connection with an accepted login: whenever the
bench sends a request, one packet is unread, the hand of the exchange before;
every wait reads that hand and the reply to its own request up to its state; and
while it waits, there is a packet to read once the worker has made its next four
steps. -/
theorem bench_paired (store : Store) (rng : ℕ → ℕ) (idx : ℕ) (rounds : ℤ)
    (ms : List (LinkMove Empty))
    (h : Run.Along (Link.step bench) Smooth (Link.start store rng (Bench.start idx rounds)) ms) :
    Run.Along (Link.step bench) OneUnread (Link.start store rng (Bench.start idx rounds)) ms ∧
    let s := ms.foldl (Link.step bench) (Link.start store rng (Bench.start idx rounds))
    (s.client.pc = .done → s.talk.Each BenchAnswer rng) ∧
    (s.client.pc ≠ .done →
      (∃ p read, ∃ older : Talk, s.talk = (p, read) :: older ∧ older.Each BenchAnswer rng ∧
        (Request p → ∃ more, more ≠ [] ∧ BenchAnswer (Talk.game rng older) p (read ++ more))) ∧
      ∀ quiet : List (LinkMove Empty), (∀ m ∈ quiet, m.quiet = true) →
        Run.Along (Link.step bench) Smooth s quiet →
        4 ≤ (quiet.filter LinkMove.serves).length →
        (quiet.foldl (Link.step bench) s).down ≠ []) := by
  have hstart : Bench.Inv rng (Bench.start idx rounds)
      (Link.start store rng (Bench.start idx rounds)) :=
    .waits (n := 3) (by decide) (.joining (joining_start store rng _))
  refine ⟨Run.along_of_invariant (fun _ m hs hi => (bench_step hi m hs).1)
    (fun _ m hs hi => (bench_step hi m hs).2) hstart h, ?_⟩
  intro s
  have hinv : Bench.Inv rng (Bench.start idx rounds) s :=
    Run.invariant (I := Bench.Inv rng (Bench.start idx rounds))
      (fun _ m hs hi => (bench_step hi m hs).1) hstart h
  cases hinv with
  | done hpc past => exact ⟨fun _ => past, fun hne => absurd hpc hne⟩
  | waits hn hw =>
    refine ⟨fun hpc => absurd hpc hw.not_done, fun _ => ⟨hw.part, fun quiet hq hc hlen => ?_⟩⟩
    have hrun := quiet_run (P := bench) (W := Bench.Waits rng (Bench.start idx rounds))
      (fun _ _ _ hs hw => hw.serve hs) (fun _ _ c hw => hw.other c) hq hc hw
    rw [Nat.sub_eq_zero_of_le (hn.trans hlen)] at hrun
    exact hrun.ready

/-- One round of the second bench worker: the login, a play and an end of the turn. -/
def benchMoves : List (LinkMove Empty) :=
  [.serve env0, .serve env0, .serve env0, .take, .take, .take,
   .serve env0, .serve env0, .serve env0, .take, .take,
   .serve env0, .serve env0, .serve env0, .serve env0, .take, .take]

theorem bench_paired_round :
    let s := benchMoves.foldl (Link.step bench)
      (Link.start Store.zero (fun _ => 0) (Bench.start 1 1))
    s.client.pc = .done ∧ s.talk.length = 3 ∧ s.talk.Each BenchAnswer (fun _ => 0) := by
  have hpc : (benchMoves.foldl (Link.step bench)
      (Link.start Store.zero (fun _ => 0) (Bench.start 1 1))).client.pc = .done := by decide +kernel
  obtain ⟨_, hdone, _⟩ := bench_paired Store.zero (fun _ => 0) 1 1 benchMoves
    (by decide +kernel)
  exact ⟨hpc, by decide +kernel, hdone hpc⟩

end MiniTcg.Client
