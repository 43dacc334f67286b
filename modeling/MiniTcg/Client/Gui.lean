import MiniTcg.Client.Link
import MiniTcg.Server.Started

/-!
# The card the player confirmed

The GUI has two threads. The main thread copies the shared record once a frame
and turns clicks on that copy into commands in a pipe; the net thread forwards
the commands, sends a ping now and then, and updates the shared record with what
it receives. A play carries a slot only. It is the card on screen as long as no
click on a card is confirmed while the hand on screen is older than the last
click on "End Turn".
-/
namespace MiniTcg.Client

open MiniTcg.Game MiniTcg.Ipc MiniTcg.Wire MiniTcg.Server

/-- `net_cmd_t`. A play records the card that stood in its slot on screen. -/
inductive NetCmd
  | endTurn
  | play (idx : UInt8) (card : UInt16)
  deriving DecidableEq

/-- What the net thread sends for a command. -/
def NetCmd.packet : NetCmd → Packet
  | .endTurn => ⟨opEndTurn, []⟩
  | .play idx _ => ⟨opPlayCard, [idx]⟩

/-- `shared_t`, with the number of hands received so far. -/
structure Shared where
  st : State
  hand : Hand
  hasState : Bool
  hasHand : Bool
  connected : Bool
  hands : ℕ

/-- `g_sh`, the copy `sh` of the last frame, `selected_idx`, the commands in the
pipe, and whether the net thread is in its receive loop; `asked` is a history
variable, all commands ever written. -/
structure Gui where
  shared : Shared
  shown : Shared
  selected : Option ℕ
  pipe : List NetCmd
  online : Bool
  asked : List NetCmd

def Shared.zero : Shared := ⟨State.zero, Hand.zero, false, false, false, 0⟩

/-- The net thread has sent its login. -/
def Gui.start : Gui := ⟨Shared.zero, Shared.zero, none, [], true, []⟩

/-- Where the mouse is: on the button, on one of the three card places, or
elsewhere. -/
inductive Target
  | endButton
  | card (i : Fin 3)
  | elsewhere

/-- A new frame, a click in it, and the net thread's turns at the pipe and at its
timer. -/
inductive GuiInput
  | frame
  | click (t : Target)
  | forward
  | ping

/-- The guard of a click. -/
def Shared.clickable (sh : Shared) : Bool :=
  sh.connected && sh.hasState && sh.hasHand && sh.st.gameOver == 0 && sh.st.turn == 0

/-- The number of cards on screen. -/
def Shared.cards (sh : Shared) : ℕ := if sh.hasHand then min 3 sh.hand.n.toNat else 0

def Gui.write (c : Gui) (cmd : NetCmd) : Gui :=
  { c with selected := none, pipe := c.pipe ++ [cmd], asked := c.asked ++ [cmd] }

/-- The second click on a selected card plays it. -/
def Gui.click (c : Gui) (t : Target) : Gui :=
  if c.shown.clickable then
    match t with
    | .endButton => c.write .endTurn
    | .card i =>
      if i.val < c.shown.cards then
        if c.selected = some i.val then
          c.write (.play (UInt8.ofNat i.val) (c.shown.hand.card i.val))
        else { c with selected := some i.val }
      else { c with selected := none }
    | .elsewhere => { c with selected := none }
  else c

def Gui.react (c : Gui) : GuiInput → Gui × List Packet
  | .frame => ({ c with shown := c.shared }, [])
  | .click t => (c.click t, [])
  | .forward =>
    match c.online, c.pipe with
    | true, cmd :: rest => ({ c with pipe := rest }, [cmd.packet])
    | _, _ => (c, [])
  | .ping => if c.online then (c, [⟨opPing, []⟩]) else (c, [])

/-- The end of the receive loop. -/
def Gui.drop (c : Gui) : Gui :=
  { c with online := false, shared := { c.shared with connected := false } }

/-- The socket branch of the receive loop. -/
def Gui.take (c : Gui) (m : Msg) : Gui :=
  match m with
  | .resumeResp ok _ => if ok = 0 then c.drop else c
  | .state st =>
    { c with shared := { c.shared with st := st, hasState := true, connected := true } }
  | .hand hand =>
    { c with shared := { c.shared with hand := hand, hasHand := true, hands := c.shared.hands + 1 } }
  | _ => c

def gui : Program Gui GuiInput where
  cap := 4096
  waits c := c.online
  closed c := !c.online
  react := Gui.react
  take c m := (c.take m, [])
  lost c := (c.drop, [])

/-! ### The card that is played -/

/-- The packets that are not pings. -/
def requests (ps : List Packet) : List Packet := ps.filter fun p => p.op ≠ opPing

/-- The command whose packet the worker handles next. -/
def Link.handling (s : Link Gui) : Option NetCmd :=
  s.client.asked[(requests (received s.worker.io)).length]?

/-- The slot of the play the worker is about to accept: `handle_play_card` will
return 0. -/
def accepting (w : Worker) : Option UInt8 :=
  match w.pc with
  | .touch ⟨op, [idx]⟩ =>
    if op = opPlayCard ∧ w.game.st.gameOver = 0 ∧ w.game.st.turn = 0 ∧ w.game.st.phase = .main ∧
        (handlePlayCard w.game.st w.game.hand .player idx).2 = 0 then some idx
    else none
  | _ => none

/-- If the step accepts a play, the card in its slot is the one that was on screen
when the play was confirmed. -/
def PlaysConfirmed (s : Link Gui) : LinkMove GuiInput → Prop
  | .serve _ => ∀ idx ∈ (accepting s.worker).toList,
      s.handling = some (.play idx (s.worker.game.hand.card idx.toNat))
  | _ => True

instance (s : Link Gui) : (m : LinkMove GuiInput) → Decidable (PlaysConfirmed s m)
  | .serve _ => List.decidableBAll (fun idx =>
      s.handling = some (.play idx (s.worker.game.hand.card idx.toNat))) (accepting s.worker).toList
  | .input _ => isTrue trivial
  | .take => isTrue trivial
  | .lost => isTrue trivial
  | .other _ => isTrue trivial

/-- The input is the click that confirms a card. -/
def Gui.confirms (c : Gui) : GuiInput → Bool
  | .click (.card i) =>
    c.shown.clickable && decide (i.val < c.shown.cards) && decide (c.selected = some i.val)
  | _ => false

/-- If the input confirms a card, every end of a turn clicked so far is answered by
the hand on screen. -/
def UpToDate (s : Link Gui) : LinkMove GuiInput → Prop
  | .input k => s.client.confirms k = true →
      ∀ cmd ∈ s.client.asked.drop (s.client.shown.hands - 1), cmd ≠ .endTurn
  | _ => True

instance (s : Link Gui) : (m : LinkMove GuiInput) → Decidable (UpToDate s m)
  | .input _ =>
    have := List.decidableBAll (fun cmd => cmd ≠ NetCmd.endTurn)
      (s.client.asked.drop (s.client.shown.hands - 1))
    inferInstanceAs (Decidable (_ → _))
  | .take => isTrue trivial
  | .lost => isTrue trivial
  | .serve _ => isTrue trivial
  | .other _ => isTrue trivial

/-! ### The match after some commands -/

/-- The match after the first `j` commands. -/
def gameAt (rng : ℕ → ℕ) (asked : List NetCmd) (j : ℕ) : Match :=
  playout rng ((asked.take j).map NetCmd.packet)

section GameAt
variable {rng : ℕ → ℕ} {asked : List NetCmd} {j : ℕ}

theorem gameAt_append (hj : j ≤ asked.length) (cmd : NetCmd) :
    gameAt rng (asked ++ [cmd]) j = gameAt rng asked j := by
  unfold gameAt
  rw [List.take_append_of_le_length hj]

theorem gameAt_succ {cmd : NetCmd} (hj : asked[j]? = some cmd) :
    gameAt rng asked (j + 1) = onPacket (gameAt rng asked j) cmd.packet := by
  unfold gameAt
  rw [List.take_add_one, hj, Option.toList_some, List.map_append, List.map_singleton,
    playout_append]

theorem gameAt_idle (rng : ℕ → ℕ) (asked : List NetCmd) (j : ℕ) :
    Idle (gameAt rng asked j).st.toCore := (playout_reachable rng _).2

/-- A play leaves the hand as it is. -/
theorem onPacket_play_hand (g : Match) (idx : UInt8) (card : UInt16) :
    (onPacket g (NetCmd.play idx card).packet).hand = g.hand := by
  show (onPacket g ⟨opPlayCard, [idx]⟩).hand = g.hand
  unfold onPacket
  split
  · rfl
  · simp only [if_true]
    split
    · rfl
    · rfl

/-- Without an end of the turn in between, the hand stays. -/
theorem gameAt_hand {k : ℕ} (hjk : j ≤ k) (hk : k ≤ asked.length)
    (h : ∀ cmd ∈ asked.drop j, cmd ≠ .endTurn) :
    (gameAt rng asked k).hand = (gameAt rng asked j).hand := by
  induction k with
  | zero => rw [Nat.le_zero.mp hjk]
  | succ k ih =>
    by_cases heq : j = k + 1
    · rw [heq]
    · have hjk' : j ≤ k := by omega
      have hlt : k < asked.length := by omega
      have hget : asked[k]? = some asked[k] := List.getElem?_eq_getElem hlt
      have hmem : asked[k] ∈ asked.drop j := by
        refine List.mem_of_getElem? (i := k - j) ?_
        rw [List.getElem?_drop, Nat.add_sub_cancel' hjk', hget]
      rw [gameAt_succ hget, ← ih hjk' (by omega)]
      cases hcmd : asked[k] with
      | endTurn => exact absurd hcmd (h _ hmem)
      | play idx card => exact onPacket_play_hand _ idx card

end GameAt

/-! ### What the screen knows -/

/-- Every play names the card its slot will have when it is handled. -/
def Fair (rng : ℕ → ℕ) (asked : List NetCmd) : Prop :=
  ∀ j idx card, asked[j]? = some (.play idx card) →
    (gameAt rng asked j).hand.card idx.toNat = card

/-- The record's hand is the one after as many commands as it has counted. -/
structure Known (rng : ℕ → ℕ) (asked : List NetCmd) (sh : Shared) : Prop where
  counted : sh.hasHand = true → 1 ≤ sh.hands
  hand : 1 ≤ sh.hands →
    sh.hands ≤ asked.length + 1 ∧ sh.hand = (gameAt rng asked (sh.hands - 1)).hand

section Known
variable {rng : ℕ → ℕ} {asked : List NetCmd} {sh : Shared}

theorem Known.append (h : Known rng asked sh) (cmd : NetCmd) : Known rng (asked ++ [cmd]) sh := by
  refine ⟨h.counted, fun hpos => ?_⟩
  obtain ⟨hle, hhand⟩ := h.hand hpos
  rw [List.length_append, List.length_singleton, gameAt_append (by omega)]
  exact ⟨by omega, hhand⟩

theorem Fair.append (h : Fair rng asked) {cmd : NetCmd}
    (hcmd : ∀ idx card, cmd = .play idx card →
      (gameAt rng asked asked.length).hand.card idx.toNat = card) : Fair rng (asked ++ [cmd]) := by
  intro j idx card hj
  rw [List.getElem?_append] at hj
  split at hj
  · rename_i hlt
    rw [gameAt_append (Nat.le_of_lt hlt)]
    exact h j idx card hj
  · rename_i hge
    rw [List.getElem?_singleton] at hj
    split at hj
    · rename_i hz
      have hlen : j = asked.length := by omega
      rw [gameAt_append (by omega), hlen]
      exact hcmd idx card (Option.some.inj hj)
    · cases hj

/-- A card confirmed on an up-to-date hand is the card of its slot. -/
theorem Fair.confirm (h : Fair rng asked) (hk : Known rng asked sh) (hpos : 1 ≤ sh.hands)
    (hnew : ∀ cmd ∈ asked.drop (sh.hands - 1), cmd ≠ .endTurn) {i : ℕ} (hi : i < 256) :
    Fair rng (asked ++ [.play (UInt8.ofNat i) (sh.hand.card i)]) := by
  obtain ⟨hle, hhand⟩ := hk.hand hpos
  refine h.append fun idx card he => ?_
  injection he with hidx hcard
  have hnat : idx.toNat = i := by
    rw [← hidx, UInt8.toNat_ofNat', Nat.mod_eq_of_lt hi]
  rw [gameAt_hand (j := sh.hands - 1) (by omega) (Nat.le_refl _) hnew, ← hhand, hnat, hcard]

end Known

/-! ### Packets and hands in order -/

def msgHand? : Msg → Option Hand
  | .hand hand => some hand
  | _ => none

/-- The hands among some messages. -/
def handsIn (ms : List Msg) : List Hand := ms.filterMap msgHand?

/-- The packets the worker has taken from the connection since the login. -/
def taken (w : Worker) : List Packet :=
  received w.io ++ match w.pc with
    | .touch p => [p]
    | _ => []

section Order
variable {w w' : Worker} {p : Packet}

theorem taken_touch (h : w.pc = .touch p) : taken w = received w.io ++ [p] := by
  unfold taken
  rw [h]

theorem taken_handled (h : ∀ p, w.pc ≠ .touch p) : taken w = received w.io := by
  unfold taken
  split
  · exact absurd ‹_› (h _)
  · exact List.append_nil _

theorem taken_inside (h : Inside w w') : taken w' = received w.io := by
  rw [taken_handled h.handled, h.got]

/-- The worker's own steps take no packet. -/
theorem onIpc_taken {g : Match} {out : List Msg} {n : ℕ} (h : Owes g out n w) (s : Store)
    (env : AllocEnv) : taken (w.onIpc s env).1 = taken w := by
  have hsave : ∀ a base, w.pc = .save a base → taken (w.onIpc s env).1 = taken w := by
    intro a base hpc
    have hold : taken w = received w.io := taken_handled (by rw [hpc]; exact nofun)
    rw [hold]
    simp only [Worker.onIpc, hpc]
    exact (taken_inside (afterSave_inside _ a)).trans rfl
  cases h with
  | waiting pc _ _ => simp only [Worker.onIpc, pc]
  | touched pc _ _ _ =>
    rw [taken_touch pc]
    simp only [Worker.onIpc, pc]
    exact (taken_inside (dispatch_inside _ _)).trans (received_got _ _)
  | ending pc _ _ => exact hsave _ _ pc
  | saving pc _ _ _ => exact hsave _ _ pc
  | login pc _ _ => exact hsave _ _ pc

theorem onIpc_handled {g : Match} {out : List Msg} {n : ℕ} (h : Owes g out n w) (s : Store)
    (env : AllocEnv) : ∀ p, (w.onIpc s env).1.pc ≠ .touch p := by
  have hsave : ∀ a base, w.pc = .save a base → ∀ p, (w.onIpc s env).1.pc ≠ .touch p := by
    intro a base hpc
    simp only [Worker.onIpc, hpc]
    exact (afterSave_inside _ a).handled
  cases h with
  | waiting pc _ _ =>
    simp only [Worker.onIpc, pc]
    intro p hp
    cases hp
  | touched pc _ _ _ =>
    simp only [Worker.onIpc, pc]
    exact (dispatch_inside _ _).handled
  | ending pc _ _ => exact hsave _ _ pc
  | saving pc _ _ _ => exact hsave _ _ pc
  | login pc _ _ => exact hsave _ _ pc

theorem packet_request (cmd : NetCmd) : Request cmd.packet := by
  cases cmd with
  | endTurn => exact Or.inl rfl
  | play idx card => exact Or.inr ⟨idx, rfl⟩

theorem requests_append (a b : List Packet) : requests (a ++ b) = requests a ++ requests b :=
  List.filter_append _ _

theorem requests_request (h : Request p) : requests [p] = [p] := by
  simp [requests, (request_op h).1]

theorem requests_ping : requests [⟨opPing, []⟩] = [] := rfl

theorem handsIn_append (a b : List Msg) : handsIn (a ++ b) = handsIn a ++ handsIn b :=
  List.filterMap_append

/-- A request is answered with one hand, that of the match after it. -/
theorem handsIn_reply {g : Match} (hi : Idle g.st.toCore) (h : Request p) :
    handsIn (reply g p) = [(onPacket g p).hand] := by
  obtain ⟨err, hr, herr⟩ := reply_request hi h
  have hnone : handsIn err = [] := by
    rcases herr with rfl | ⟨code, msg, rfl⟩
    · rfl
    · rfl
  rw [hr, handsIn_append, hnone]
  rfl

end Order

/-! ### The joint invariant -/

def Pings (ps : List Packet) : Prop := ∀ p ∈ ps, p = ⟨opPing, []⟩

/-- The login is not yet answered; nothing was clicked, nothing sent. -/
structure Joins (rng : ℕ → ℕ) (s : Link Gui) : Prop where
  asked : s.client.asked = []
  pipe : s.client.pipe = []
  io : s.worker.io = []
  stage : (∃ ps, s.up = loginPacket :: ps ∧ Pings ps ∧ s.worker = Worker.init rng) ∨
    (Pings s.up ∧ s.worker.pc = .alloc (origin rng) ∧ s.worker.game = loginGame (origin rng))

/-- The commands written are, in order, those the worker has taken, those on their
way and those in the pipe; each of the first was answered or will be with one
hand, that of the match after it. -/
structure Serves (rng : ℕ → ℕ) (s : Link Gui) : Prop where
  order : requests (taken s.worker) ++ (requests s.up ++ s.client.pipe.map NetCmd.packet) =
    s.client.asked.map NetCmd.packet
  clean : ∀ p ∈ s.up, p = ⟨opPing, []⟩ ∨ Request p
  owes : ∃ out, Owes (gameAt rng s.client.asked (requests (taken s.worker)).length) out 3 s.worker ∧
    handsIn out = (List.range ((requests (taken s.worker)).length + 1)).map
      fun j => (gameAt rng s.client.asked j).hand
  before : ∀ p, s.worker.pc = .touch p →
    s.worker.game = gameAt rng s.client.asked (requests (received s.worker.io)).length

/-- The worker has exited, after the net thread has left or without a hand sent. -/
def Exited (s : Link Gui) : Prop :=
  s.worker.pc = .closed ∧ (s.client.online = false ∨ handsIn s.down = [])

structure GuiInv (rng : ℕ → ℕ) (s : Link Gui) : Prop where
  fair : Fair rng s.client.asked
  shared : Known rng s.client.asked s.client.shared
  shown : Known rng s.client.asked s.client.shown
  later : s.client.shown.hands ≤ s.client.shared.hands
  talk : s.talk ≠ []
  stream : sent s.worker.io = s.talk.read ++ s.down
  hands : s.client.shared.hands = (handsIn s.talk.read).length
  server : Joins rng s ∨ Serves rng s ∨ Exited s

section Steps
variable {rng : ℕ → ℕ} {s : Link Gui}

theorem Serves.count_le (h : Serves rng s) :
    (requests (taken s.worker)).length ≤ s.client.asked.length := by
  have hlen := congrArg List.length h.order
  rw [List.length_append, List.length_map] at hlen
  omega

/-- The command of a packet is the one as many packets into `asked`. -/
theorem asked_next {a b : List Packet} {p : Packet} {asked : List NetCmd}
    (h : a ++ p :: b = asked.map NetCmd.packet) :
    ∃ cmd, asked[a.length]? = some cmd ∧ cmd.packet = p := by
  have hget := congrArg (fun l => l[a.length]?) h
  simp only [List.getElem?_append_right (Nat.le_refl _), Nat.sub_self, List.getElem?_cons_zero,
    List.getElem?_map] at hget
  exact Option.map_eq_some_iff.mp hget.symm

/-- Before the login is answered there is nothing to read. -/
theorem Joins.silent (h : Joins rng s) {read ds : List Msg}
    (hstream : sent s.worker.io = read ++ ds) : read = [] ∧ ds = [] := by
  rw [h.io] at hstream
  exact List.append_eq_nil_iff.mp hstream.symm

/-- The server's side of the invariant does not depend on the screen. -/
theorem server_keep {s' : Link Gui} (h : Joins rng s ∨ Serves rng s ∨ Exited s)
    (hworker : s'.worker = s.worker) (hup : s'.up = s.up) (hdown : s'.down = s.down)
    (hasked : s'.client.asked = s.client.asked) (hpipe : s'.client.pipe = s.client.pipe)
    (honline : s.client.online = false → s'.client.online = false) :
    Joins rng s' ∨ Serves rng s' ∨ Exited s' := by
  rcases h with hj | hs | ⟨hpc, hout⟩
  · refine Or.inl ⟨hasked.trans hj.asked, hpipe.trans hj.pipe, ?_, ?_⟩
    · rw [hworker]
      exact hj.io
    · rw [hworker, hup]
      exact hj.stage
  · obtain ⟨horder, hclean, howes, hbefore⟩ := hs
    rw [← hworker, ← hup, ← hasked, ← hpipe] at horder
    rw [← hup] at hclean
    rw [← hworker, ← hasked] at howes hbefore
    exact Or.inr (Or.inl ⟨horder, hclean, howes, hbefore⟩)
  · refine Or.inr (Or.inr ⟨hworker ▸ hpc, ?_⟩)
    rw [hdown]
    exact hout.imp honline id

/-- A written command. -/
theorem GuiInv.write (h : GuiInv rng s) {cmd : NetCmd} (hclick : s.client.shown.hasHand = true)
    (hfair : Fair rng (s.client.asked ++ [cmd])) :
    GuiInv rng { s with client := s.client.write cmd } := by
  have hpos : 1 ≤ (handsIn s.talk.read).length := by
    rw [← h.hands]
    exact (h.shown.counted hclick).trans h.later
  refine ⟨hfair, h.shared.append cmd, h.shown.append cmd, h.later, h.talk, h.stream, h.hands, ?_⟩
  rcases h.server with hj | hs | he
  · -- a hand was received, so the login is answered
    rw [(hj.silent h.stream).1] at hpos
    exact absurd hpos (by decide)
  · refine Or.inr (Or.inl ⟨?_, hs.clean, ?_, fun p hpc => ?_⟩)
    · show _ ++ (_ ++ (s.client.pipe ++ [cmd]).map NetCmd.packet) = (s.client.asked ++ [cmd]).map _
      rw [List.map_append, List.map_append, ← hs.order]
      simp only [List.append_assoc]
    · obtain ⟨out, howes, hout⟩ := hs.owes
      have hle := hs.count_le
      refine ⟨out, ?_, ?_⟩
      · show Owes (gameAt rng (s.client.asked ++ [cmd]) _) out 3 s.worker
        rw [gameAt_append hle]
        exact howes
      · rw [hout]
        refine List.map_congr_left fun j hj => ?_
        have hlt := List.mem_range.mp hj
        show _ = (gameAt rng (s.client.asked ++ [cmd]) j).hand
        rw [gameAt_append (by omega)]
    · have hle := hs.count_le
      rw [taken_touch hpc, requests_append, List.length_append] at hle
      show s.worker.game = gameAt rng (s.client.asked ++ [cmd]) _
      rw [gameAt_append (by omega)]
      exact hs.before p hpc
  · exact Or.inr (Or.inr he)

/-- Clicks that write nothing only change the selection. -/
theorem GuiInv.select (h : GuiInv rng s) (i : Option ℕ) :
    GuiInv rng { s with client := { s.client with selected := i } } :=
  ⟨h.fair, h.shared, h.shown, h.later, h.talk, h.stream, h.hands,
    server_keep h.server rfl rfl rfl rfl rfl id⟩

theorem Shared.clickable_hand {sh : Shared} (h : sh.clickable = true) : sh.hasHand = true := by
  unfold Shared.clickable at h
  simp only [Bool.and_eq_true] at h
  exact h.1.1.2

theorem GuiInv.click (h : GuiInv rng s) (t : Target) (hc : UpToDate s (.input (.click t))) :
    GuiInv rng { s with client := s.client.click t } := by
  unfold Gui.click
  by_cases hclick : s.client.shown.clickable = true
  · have hhand := Shared.clickable_hand hclick
    rw [if_pos hclick]
    cases t with
    | endButton =>
      refine h.write hhand (h.fair.append fun idx card he => ?_)
      cases he
    | elsewhere => exact h.select none
    | card i =>
      simp only
      by_cases hi : i.val < s.client.shown.cards
      · rw [if_pos hi]
        by_cases hsel : s.client.selected = some i.val
        · rw [if_pos hsel]
          have hconf : s.client.confirms (.click (.card i)) = true := by
            simp [Gui.confirms, hclick, hi, hsel]
          have hlt : i.val < 256 := by have := i.isLt; omega
          exact h.write hhand
            (h.fair.confirm h.shown (h.shown.counted hhand) (hc hconf) hlt)
        · rw [if_neg hsel]
          exact h.select _
      · rw [if_neg hi]
        exact h.select none
  · rw [if_neg hclick]
    exact h

/-- A sent packet, the server's side of the invariant given. -/
theorem GuiInv.say (h : GuiInv rng s) {c : Gui} {p : Packet} (hasked : c.asked = s.client.asked)
    (hshared : c.shared = s.client.shared) (hshown : c.shown = s.client.shown)
    (hserver : Joins rng (s.put (c, [p])) ∨ Serves rng (s.put (c, [p])) ∨ Exited (s.put (c, [p]))) :
    GuiInv rng (s.put (c, [p])) := by
  have hread : Talk.read ((p, []) :: s.talk) = s.talk.read := by
    rw [read_cons, List.append_nil]
  obtain ⟨hfair, hknown, hscreen, hlater, _, hstream, hhands, _⟩ := h
  rw [← hasked] at hfair hknown hscreen
  rw [← hshared] at hknown hlater hhands
  rw [← hshown] at hscreen hlater
  rw [← hread] at hstream hhands
  exact ⟨hfair, hknown, hscreen, hlater, List.cons_ne_nil _ _, hstream, hhands, hserver⟩

theorem GuiInv.forward (h : GuiInv rng s) {cmd : NetCmd} {rest : List NetCmd}
    (hpipe : s.client.pipe = cmd :: rest) :
    GuiInv rng (s.put ({ s.client with pipe := rest }, [cmd.packet])) := by
  refine h.say rfl rfl rfl ?_
  rcases h.server with hj | hs | he
  · rw [hj.pipe] at hpipe
    cases hpipe
  · refine Or.inr (Or.inl ⟨?_, ?_, hs.owes, hs.before⟩)
    · have horder := hs.order
      rw [hpipe] at horder
      show _ ++ (requests (s.up ++ [cmd.packet]) ++ rest.map NetCmd.packet) = _
      rw [requests_append, requests_request (packet_request cmd), List.append_assoc]
      exact horder
    · show ∀ p ∈ s.up ++ [cmd.packet], _
      exact List.forall_mem_append.mpr
        ⟨hs.clean, List.forall_mem_singleton.mpr (Or.inr (packet_request cmd))⟩
  · exact Or.inr (Or.inr he)

theorem GuiInv.ping (h : GuiInv rng s) : GuiInv rng (s.put (s.client, [⟨opPing, []⟩])) := by
  refine h.say rfl rfl rfl ?_
  rcases h.server with hj | hs | he
  · refine Or.inl ⟨hj.asked, hj.pipe, hj.io, ?_⟩
    rcases hj.stage with ⟨ps, hup, hps, hw⟩ | ⟨hps, hpc, hgame⟩
    · refine Or.inl ⟨ps ++ [⟨opPing, []⟩], ?_, ?_, hw⟩
      · show s.up ++ _ = _
        rw [hup]
        rfl
      · exact List.forall_mem_append.mpr ⟨hps, List.forall_mem_singleton.mpr rfl⟩
    · refine Or.inr ⟨?_, hpc, hgame⟩
      exact List.forall_mem_append.mpr ⟨hps, List.forall_mem_singleton.mpr rfl⟩
  · refine Or.inr (Or.inl ⟨?_, ?_, hs.owes, hs.before⟩)
    · show _ ++ (requests (s.up ++ [⟨opPing, []⟩]) ++ _) = _
      rw [requests_append, requests_ping, List.append_nil]
      exact hs.order
    · exact List.forall_mem_append.mpr ⟨hs.clean, List.forall_mem_singleton.mpr (Or.inl rfl)⟩
  · exact Or.inr (Or.inr he)

/-- The hand at the head of `down` is the one after the commands counted so far. -/
theorem Serves.hand_next (h : Serves rng s) {read ds : List Msg} {hand : Hand}
    (hstream : sent s.worker.io = read ++ .hand hand :: ds) :
    (handsIn read).length ≤ s.client.asked.length ∧
      hand = (gameAt rng s.client.asked (handsIn read).length).hand := by
  obtain ⟨out, howes, hout⟩ := h.owes
  obtain ⟨more, hmore⟩ := howes.sent_of_out
  have hsplit : handsIn out = handsIn read ++ hand :: handsIn (ds ++ more) := by
    rw [← hmore, hstream, List.append_assoc, handsIn_append]
    rfl
  have hget : (handsIn out)[(handsIn read).length]? = some hand := by
    rw [hsplit, List.getElem?_append_right (Nat.le_refl _), Nat.sub_self]
    rfl
  rw [hout, List.getElem?_map, Option.map_eq_some_iff] at hget
  obtain ⟨j, hj, hhand⟩ := hget
  obtain ⟨hlt, hval⟩ := List.getElem?_eq_some_iff.mp hj
  rw [List.length_range] at hlt
  rw [List.getElem_range] at hval
  have hle := h.count_le
  rw [hval]
  exact ⟨by omega, hhand.symm⟩

/-- A packet that is no hand. -/
theorem GuiInv.take_other (h : GuiInv rng s) {m : Msg} {ds : List Msg} (hd : s.down = m :: ds)
    (hm : handsIn [m] = []) {c : Gui} (hasked : c.asked = s.client.asked)
    (hpipe : c.pipe = s.client.pipe) (hshown : c.shown = s.client.shown)
    (hhas : c.shared.hasHand = s.client.shared.hasHand)
    (hhand : c.shared.hand = s.client.shared.hand) (hhands : c.shared.hands = s.client.shared.hands)
    (honline : s.client.online = true) :
    GuiInv rng { s with client := c, down := ds, talk := s.talk.hear m } := by
  have hread := read_hear h.talk m
  have hknown : Known rng c.asked c.shared := by
    rw [hasked]
    refine ⟨fun hh => ?_, fun hpos => ?_⟩
    · rw [hhands]
      exact h.shared.counted (hhas ▸ hh)
    · rw [hhands, hhand]
      exact h.shared.hand (hhands ▸ hpos)
  refine ⟨hasked ▸ h.fair, hknown, ?_, ?_, hear_ne_nil h.talk m, ?_, ?_, ?_⟩
  · show Known rng c.asked c.shown
    rw [hasked, hshown]
    exact h.shown
  · show c.shown.hands ≤ c.shared.hands
    rw [hshown, hhands]
    exact h.later
  · show sent s.worker.io = (s.talk.hear m).read ++ ds
    rw [hread, h.stream, hd, List.append_assoc]
    rfl
  · show c.shared.hands = (handsIn (s.talk.hear m).read).length
    rw [hhands, hread, handsIn_append, hm, List.append_nil]
    exact h.hands
  · rcases h.server with hj | hs | ⟨hpc, hout⟩
    · refine Or.inl ⟨hasked.trans hj.asked, hpipe.trans hj.pipe, hj.io, hj.stage⟩
    · obtain ⟨horder, hclean, howes, hbefore⟩ := hs
      rw [← hasked] at horder howes hbefore
      rw [← hpipe] at horder
      exact Or.inr (Or.inl ⟨horder, hclean, howes, hbefore⟩)
    · refine Or.inr (Or.inr ⟨hpc, Or.inr ?_⟩)
      have hnone := hout.resolve_left (by rw [honline]; decide)
      have hsplit : handsIn (m :: ds) = handsIn [m] ++ handsIn ds := handsIn_append [m] ds
      rw [hd, hsplit, hm] at hnone
      exact hnone

theorem GuiInv.take_hand (h : GuiInv rng s) {hand : Hand} {ds : List Msg}
    (hd : s.down = .hand hand :: ds) (honline : s.client.online = true) :
    GuiInv rng { s with
      client := s.client.take (.hand hand), down := ds, talk := s.talk.hear (.hand hand) } := by
  have hread := read_hear h.talk (.hand hand)
  have hstream := h.stream
  rw [hd] at hstream
  rcases h.server with hj | hs | ⟨hpc, hout⟩
  · exact absurd (hj.silent hstream).2 (List.cons_ne_nil _ _)
  · obtain ⟨hle, hhand⟩ := hs.hand_next hstream
    rw [← h.hands] at hle hhand
    refine ⟨h.fair, ⟨fun _ => Nat.succ_pos _, fun _ => ⟨?_, ?_⟩⟩, h.shown, Nat.le_succ_of_le h.later,
      hear_ne_nil h.talk _, ?_, ?_, Or.inr (Or.inl ⟨hs.order, hs.clean, hs.owes, hs.before⟩)⟩
    · exact Nat.succ_le_succ hle
    · exact hhand
    · show sent s.worker.io = (s.talk.hear (.hand hand)).read ++ ds
      rw [hread, hstream, List.append_assoc]
      rfl
    · show s.client.shared.hands + 1 = (handsIn (s.talk.hear (.hand hand)).read).length
      rw [hread, handsIn_append, List.length_append, h.hands]
      rfl
  · have hnone := hout.resolve_left (by rw [honline]; decide)
    rw [hd] at hnone
    cases hnone

theorem GuiInv.take (h : GuiInv rng s) : GuiInv rng (s.step gui .take) := by
  cases honline : s.client.online with
  | false =>
    have hsame : s.step gui .take = s := by simp [Link.step, gui, honline]
    rw [hsame]
    exact h
  | true =>
    cases hd : s.down with
    | nil =>
      have hsame : s.step gui .take = s := by simp [Link.step, hd]
      rw [hsame]
      exact h
    | cons m ds =>
      have hstep : s.step gui .take =
          { s with client := s.client.take m, down := ds, talk := s.talk.hear m } := by
        have hhears : gui.hears s.client m = (s.client.take m, []) :=
          if_pos ((payload_le m).trans (by decide))
        have hwaits : gui.waits s.client = true := honline
        simp only [Link.step, hwaits, hd, hhears, put_client]
      rw [hstep]
      cases m with
      | hand hand => exact h.take_hand hd honline
      | state st => exact h.take_other hd rfl rfl rfl rfl rfl rfl rfl honline
      | loginResp ok => exact h.take_other hd rfl rfl rfl rfl rfl rfl rfl honline
      | pong => exact h.take_other hd rfl rfl rfl rfl rfl rfl rfl honline
      | error code msg => exact h.take_other hd rfl rfl rfl rfl rfl rfl rfl honline
      | resumeResp ok sid =>
        unfold Gui.take
        simp only
        split
        · exact h.take_other hd rfl rfl rfl rfl rfl rfl rfl honline
        · exact h.take_other hd rfl rfl rfl rfl rfl rfl rfl honline

theorem GuiInv.lost (h : GuiInv rng s) : GuiInv rng { s with client := s.client.drop } :=
  ⟨h.fair, ⟨h.shared.counted, h.shared.hand⟩, h.shown, h.later, h.talk, h.stream, h.hands,
    server_keep h.server rfl rfl rfl rfl rfl fun _ => rfl⟩

/-- The worker's step, its side of the invariant given. -/
theorem GuiInv.of_server (h : GuiInv rng s) (env : AllocEnv)
    (hserver : Joins rng (s.step gui (.serve env)) ∨ Serves rng (s.step gui (.serve env)) ∨
      Exited (s.step gui (.serve env))) : GuiInv rng (s.step gui (.serve env)) := by
  refine ⟨h.fair, h.shared, h.shown, h.later, h.talk, ?_, h.hands, hserver⟩
  show _ = s.talk.read ++ (s.down ++ _)
  rw [← List.append_assoc, ← h.stream]
  exact sent_step (serveStep_io _ _ _ _ _)

theorem Joins.serve (h : Joins rng s) (hdown : s.down = []) (env : AllocEnv) :
    Joins rng (s.step gui (.serve env)) ∨ Serves rng (s.step gui (.serve env)) ∨
      Exited (s.step gui (.serve env)) := by
  obtain ⟨hasked, hpipe, hio, ⟨ps, hup, hps, hw⟩ | ⟨hps, hpc, hgame⟩⟩ := h
  · left
    simp only [Link.step, hup, hw, serveStep, Worker.init, Pc.listens, if_true]
    exact ⟨hasked, hpipe, rfl, Or.inr ⟨hps, rfl, rfl⟩⟩
  · right
    simp only [Link.step, serveStep, hpc, Pc.listens, Bool.false_eq_true, if_false, Worker.onIpc, hio]
    by_cases hz : (ipcAllocSession s.store env).2 = 0
    · right
      simp only [if_pos hz]
      refine ⟨rfl, Or.inr ?_⟩
      show handsIn (s.down ++ (sent (.sent _ :: s.worker.io)).drop _) = []
      rw [hdown, hio]
      rfl
    · left
      simp only [if_neg hz]
      have hpings : requests s.up = [] := by
        refine List.filter_eq_nil_iff.mpr fun p hp => ?_
        rw [hps p hp]
        decide
      refine ⟨?_, fun p hp => Or.inl (hps p hp), ⟨_, .login rfl ?_ rfl, ?_⟩, ?_⟩
      · show [] ++ (requests s.up ++ s.client.pipe.map NetCmd.packet) = s.client.asked.map _
        rw [hpings, hpipe, hasked]
        rfl
      · show s.worker.game = gameAt rng s.client.asked 0
        exact hgame
      · rfl
      · intro p hp
        cases hp

theorem Serves.read (h : Serves rng s) (hpc : s.worker.pc = .recv) {p : Packet} {ps : List Packet}
    (hup : s.up = p :: ps) (down : List Msg) :
    Serves rng { s with worker := { s.worker with pc := .touch p }, up := ps, down := down } := by
  obtain ⟨out, howes, hout⟩ := h.owes
  obtain ⟨hgame, hsent⟩ := howes.at_recv hpc
  have hold : taken s.worker = received s.worker.io := taken_handled (by rw [hpc]; exact nofun)
  have hnew : taken { s.worker with pc := .touch p } = taken s.worker ++ [p] := by
    rw [hold]
    rfl
  have hidle : Idle s.worker.game.st.toCore := hgame ▸ gameAt_idle _ _ _
  have horder := h.order
  rw [hup] at horder
  have hclean := h.clean
  rw [hup] at hclean
  obtain ⟨hp, hps⟩ := List.forall_mem_cons.mp hclean
  refine ⟨?_, hps, ?_, fun q _ => ?_⟩
  · show requests (taken { s.worker with pc := .touch p }) ++ (requests ps ++ _) = _
    have hsplit : requests (p :: ps) = requests [p] ++ requests ps := requests_append [p] ps
    rw [hnew, requests_append, ← horder, hsplit]
    simp only [List.append_assoc]
  · show ∃ out, Owes (gameAt rng s.client.asked
        (requests (taken { s.worker with pc := .touch p })).length) out 3 _ ∧ _
    rw [hnew, requests_append]
    rcases hp with rfl | hreq
    · refine ⟨out ++ [.pong], .touched (n := 0) rfl hidle ?_ ?_, ?_⟩
      · rw [requests_ping, List.append_nil]
        exact hgame
      · rw [hsent]
        rfl
      · rw [requests_ping, List.append_nil, handsIn_append, hout]
        exact List.append_nil _
    · rw [requests_request hreq, List.length_append, List.length_singleton]
      have hsplit : requests (p :: ps) = p :: requests ps := by
        rw [← List.singleton_append, requests_append, requests_request hreq]
        rfl
      rw [hsplit, List.cons_append] at horder
      obtain ⟨cmd, hcmd, hpk⟩ := asked_next horder
      have hsucc : gameAt rng s.client.asked ((requests (taken s.worker)).length + 1) =
          onPacket s.worker.game p := by
        rw [gameAt_succ hcmd, hpk, hgame]
      refine ⟨out ++ reply s.worker.game p, .touched (n := 0) rfl hidle hsucc.symm ?_, ?_⟩
      · rw [hsent]
      · rw [handsIn_append, hout, handsIn_reply hidle hreq, List.range_succ (n := _ + 1),
          List.map_append, List.map_singleton, hsucc]
  · show s.worker.game = gameAt rng s.client.asked (requests (received s.worker.io)).length
    rw [← hold]
    exact hgame

theorem Serves.serve (h : Serves rng s) (env : AllocEnv) :
    Serves rng (s.step gui (.serve env)) ∨ Exited (s.step gui (.serve env)) := by
  obtain ⟨out, howes, hout⟩ := h.owes
  by_cases hl : s.worker.pc.listens = true
  · have hpc := Owes.at_listen howes hl
    cases hup : s.up with
    | cons p ps =>
      left
      simp only [Link.step, serveStep, hup, Worker.onRecv, hpc]
      exact h.read hpc hup _
    | nil =>
      cases honline : s.client.online with
      | true =>
        left
        rw [serve_waiting hpc hup (by simp [gui, honline])]
        exact h
      | false =>
        right
        simp only [Link.step, serveStep, hup, if_true, gui, honline, Bool.not_false, Worker.onRecv,
          hpc]
        exact ⟨rfl, Or.inl honline⟩
  · left
    have htaken := onIpc_taken howes s.store env
    have hhandled := onIpc_handled howes s.store env
    simp only [Link.step, serveStep, hl]
    refine ⟨?_, h.clean, ⟨out, ?_, ?_⟩, fun p hp => absurd hp (hhandled p)⟩
    · show requests (taken (s.worker.onIpc s.store env).1) ++ _ = _
      rw [htaken]
      exact h.order
    · show Owes (gameAt rng s.client.asked
        (requests (taken (s.worker.onIpc s.store env).1)).length) out 3 _
      rw [htaken]
      exact (howes.step (gameAt_idle _ _ _) s.store env).mono (by omega)
    · show handsIn out = (List.range
        ((requests (taken (s.worker.onIpc s.store env).1)).length + 1)).map _
      rw [htaken]
      exact hout

theorem GuiInv.frame (h : GuiInv rng s) :
    GuiInv rng { s with client := { s.client with shown := s.client.shared } } :=
  ⟨h.fair, h.shared, h.shared, Nat.le_refl _, h.talk, h.stream, h.hands,
    server_keep h.server rfl rfl rfl rfl rfl id⟩

theorem GuiInv.input (h : GuiInv rng s) (k : GuiInput) (hc : UpToDate s (.input k)) :
    GuiInv rng (s.step gui (.input k)) := by
  show GuiInv rng (s.put (s.client.react k))
  cases k with
  | frame =>
    show GuiInv rng (s.put ({ s.client with shown := s.client.shared }, []))
    rw [put_client]
    exact h.frame
  | click t =>
    show GuiInv rng (s.put (s.client.click t, []))
    rw [put_client]
    exact h.click t hc
  | forward =>
    unfold Gui.react
    simp only
    split
    · exact h.forward ‹_›
    · rw [put_nil]
      exact h
  | ping =>
    unfold Gui.react
    simp only
    split
    · exact h.ping
    · rw [put_nil]
      exact h

theorem GuiInv.serve (h : GuiInv rng s) (env : AllocEnv) : GuiInv rng (s.step gui (.serve env)) := by
  refine h.of_server env ?_
  rcases h.server with hj | hs | ⟨hpc, hout⟩
  · exact hj.serve (hj.silent h.stream).2 env
  · exact Or.inr (hs.serve env)
  · refine Or.inr (Or.inr ?_)
    simp only [Link.step, serveStep, hpc, Pc.listens, Bool.false_eq_true, if_false, Worker.onIpc,
      List.drop_length, List.append_nil]
    exact ⟨hpc, hout⟩

theorem gui_step (m : LinkMove GuiInput) (hc : UpToDate s m) (h : GuiInv rng s) :
    GuiInv rng (s.step gui m) := by
  cases m with
  | input k => exact h.input k hc
  | take => exact h.take
  | lost =>
    unfold Link.step
    simp only
    split
    · show GuiInv rng (s.put (s.client.drop, []))
      rw [put_client]
      exact h.lost
    · exact h
  | serve env => exact h.serve env
  | other c =>
    exact ⟨h.fair, h.shared, h.shown, h.later, h.talk, h.stream, h.hands,
      server_keep h.server rfl rfl rfl rfl rfl id⟩

theorem gui_start (store : Store) (rng : ℕ → ℕ) : GuiInv rng (Link.start store rng Gui.start) := by
  have hzero : Known rng [] Shared.zero := ⟨nofun, fun hpos => absurd hpos (by decide)⟩
  refine ⟨nofun, hzero, hzero, Nat.le_refl _, List.cons_ne_nil _ _, rfl, rfl, Or.inl ?_⟩
  exact ⟨rfl, rfl, rfl, Or.inl ⟨[], rfl, nofun, rfl⟩⟩

/-- The packet being handled is the one of the command `handling`. -/
theorem Serves.handles (h : Serves rng s) {p : Packet} (hpc : s.worker.pc = .touch p)
    (hp : Request p) : ∃ cmd, s.handling = some cmd ∧ cmd.packet = p := by
  have horder := h.order
  rw [taken_touch hpc, requests_append, requests_request hp, List.append_assoc] at horder
  exact asked_next horder

theorem accepting_touch {w : Worker} {idx : UInt8} (h : accepting w = some idx) :
    w.pc = .touch ⟨opPlayCard, [idx]⟩ := by
  unfold accepting at h
  split at h
  · rename_i op i hpc
    split at h
    · rename_i hcond
      rw [hpc, hcond.1, Option.some.inj h]
    · cases h
  · cases h

theorem GuiInv.plays (h : GuiInv rng s) (m : LinkMove GuiInput) : PlaysConfirmed s m := by
  cases m with
  | serve env =>
    intro idx hidx
    have hpc := accepting_touch (Option.mem_toList.mp hidx)
    rcases h.server with hj | hs | he
    · rcases hj.stage with ⟨ps, _, _, hw⟩ | ⟨_, hw, _⟩
      · rw [hw] at hpc
        cases hpc
      · rw [hw] at hpc
        cases hpc
    · obtain ⟨cmd, hcmd, hpk⟩ := hs.handles hpc (Or.inr ⟨idx, rfl⟩)
      cases cmd with
      | endTurn => cases hpk
      | play i card =>
        have hi : i = idx := by
          injection hpk with _ hpay
          exact List.head_eq_of_cons_eq hpay
        subst hi
        have hcard := h.fair _ _ _ hcmd
        rw [← hs.before _ hpc] at hcard
        rw [hcmd, hcard]
    · rw [he.1] at hpc
      cases hpc
  | input k => trivial
  | take => trivial
  | lost => trivial
  | other c => trivial

end Steps

/-- In a run whose confirming clicks are all up to date, every play the server
accepts is of the confirmed card. -/
theorem confirmed_card_played (store : Store) (rng : ℕ → ℕ) (ms : List (LinkMove GuiInput))
    (h : Run.Along (Link.step gui) UpToDate (Link.start store rng Gui.start) ms) :
    Run.Along (Link.step gui) PlaysConfirmed (Link.start store rng Gui.start) ms :=
  Run.along_of_invariant (fun _ m hc hi => gui_step m hc hi) (fun _ m _ hi => hi.plays m)
    (gui_start store rng) h

/-- The login, and the first frame that shows its hand. -/
def guiLogin : List (LinkMove GuiInput) :=
  [.serve env0, .serve env0, .serve env0, .take, .take, .take, .take, .input .frame]

/-- The player selects the first card and confirms it; the worker has read the play. -/
def guiConfirm : List (LinkMove GuiInput) :=
  [.input (.click (.card 0)), .input (.click (.card 0)), .input .forward, .serve env0]

theorem confirmed_card_played_first :
    let s := (guiLogin ++ guiConfirm).foldl (Link.step gui)
      (Link.start Store.zero (fun _ => 0) Gui.start)
    accepting s.worker = some 0 ∧ s.handling = some (.play 0 100) ∧
      Run.Along (Link.step gui) PlaysConfirmed (Link.start Store.zero (fun _ => 0) Gui.start)
        (guiLogin ++ guiConfirm ++ [.serve env0]) := by
  refine ⟨by decide +kernel, by decide +kernel, ?_⟩
  exact confirmed_card_played Store.zero (fun _ => 0) _ (by decide +kernel)

/-- The player ends the turn and at once confirms the first card. -/
def guiHasty : List (LinkMove GuiInput) :=
  [.input (.click .endButton), .input (.click (.card 0)), .input (.click (.card 0)),
   .input .forward, .input .forward, .serve env0, .serve env0, .serve env0, .serve env0,
   .serve env0, .serve env0]

theorem confirmed_card_replaced :
    ¬ Run.Along (Link.step gui) PlaysConfirmed
      (Link.start Store.zero (fun k => if k < 6 then 0 else 1) Gui.start) (guiLogin ++ guiHasty) := by
  decide +kernel

end MiniTcg.Client
