import MiniTcg.Client.Gui
import MiniTcg.Server.Capacity
import MiniTcg.Server.Sends
import MiniTcg.Wire.Layout

/-!
# The GUI across its connections

The outer loop of `net_thread`: when a connection is lost it opens another one, and
resumes the session it remembers in `g_session_id` or logs in. The worker of a
connection that was left works on until it has read everything that still reaches it.
Other clients may call the store at any time.
-/
namespace MiniTcg.Client

open MiniTcg.Game MiniTcg.Ipc MiniTcg.Wire MiniTcg.Server

/-- A connection: its worker and what is on its way. -/
structure Channel where
  worker : Worker
  up : List Packet
  down : List Msg

/-- The client, `g_session_id`, and all connections, the newest first. -/
structure Net where
  store : Store
  gui : Gui
  sid : UInt64
  channels : List Channel

/-- The client's own inputs, a new connection, a packet read or a failed call on the
newest one; a step of a worker, the loss of what a connection still carries to it, and
a call of another process. -/
inductive NetMove
  | input (k : GuiInput)
  | connect (rng : ℕ → ℕ)
  | take
  | lost
  | serve (i : ℕ) (env : AllocEnv)
  | cut (i : ℕ)
  | other (c : Call)

def resumeRequest (sid : UInt64) : Packet := ⟨opResumeReq, resumeReqT.put sid⟩

/-- The first packet of a connection. -/
def Net.hello (s : Net) : Packet := if s.sid ≠ 0 then resumeRequest s.sid else loginPacket

/-- `g_session_id` after a received packet. -/
def sidAfter (sid : UInt64) : Msg → UInt64
  | .resumeResp ok sid' => if ok ≠ 0 then sid' else 0
  | _ => sid

/-- Connection `i` is the one the client uses. -/
def Net.inUse (s : Net) (i : ℕ) : Bool := s.gui.online && i == 0

def Channel.send (c : Channel) (ps : List Packet) : Channel := { c with up := c.up ++ ps }

/-- The worker's next step; what it sends arrives at once. -/
def Channel.serve (c : Channel) (store : Store) (gone : Bool) (env : AllocEnv) : Channel × Store :=
  let r := serveStep c.worker store c.up gone env
  (⟨r.1, r.2.2, c.down ++ (sent r.1.io).drop (sent c.worker.io).length⟩, r.2.1)

def Net.step (s : Net) : NetMove → Net
  | .input k =>
    { s with
      gui := (s.gui.react k).1
      channels := s.channels.modify 0 (·.send (s.gui.react k).2) }
  | .connect rng =>
    if s.gui.online then s
    else
      { s with
        gui := { s.gui with online := true }
        channels := ⟨Worker.init rng, [s.hello], []⟩ :: s.channels }
  | .take =>
    match s.gui.online, s.channels with
    | true, ⟨worker, up, m :: ms⟩ :: older =>
      { s with gui := s.gui.take m, sid := sidAfter s.sid m, channels := ⟨worker, up, ms⟩ :: older }
    | _, _ => s
  | .lost => if s.gui.online then { s with gui := s.gui.drop } else s
  | .serve i env =>
    match s.channels[i]? with
    | none => s
    | some c =>
      let r := c.serve s.store (!s.inUse i) env
      { s with store := r.2, channels := s.channels.set i r.1 }
  | .cut i =>
    if s.inUse i then s
    else { s with channels := s.channels.modify i fun c => { c with up := [] } }
  | .other c => { s with store := (s.store.call c).1 }

/-- Before the first connection. -/
def Net.start (store : Store) : Net := ⟨store, { Gui.start with online := false }, 0, []⟩

/-! ### Every command at most once -/

/-- The packets of the GUI's commands. -/
def commands (ps : List Packet) : List Packet :=
  ps.filter fun p => decide (p.op = opPlayCard ∨ p.op = opEndTurn)

/-- The commands a connection has carried to its worker or still carries. -/
def Channel.carried (c : Channel) : List Packet := commands (taken c.worker) ++ commands c.up

/-- The commands of all connections, the oldest connection first. -/
def carried : List Channel → List Packet
  | [] => []
  | c :: older => carried older ++ c.carried

/-- The commands read by the workers, connection by connection. -/
def read (cs : List Channel) : List Packet := cs.reverse.flatMap fun c => commands (taken c.worker)

theorem commands_append (a b : List Packet) : commands (a ++ b) = commands a ++ commands b :=
  List.filter_append _ _

theorem commands_command (cmd : NetCmd) : commands [cmd.packet] = [cmd.packet] := by
  cases cmd with
  | endTurn => rfl
  | play idx card => rfl

section Carried
variable {cs : List Channel} {c c' : Channel} {i : ℕ}

theorem read_carried (cs : List Channel) : (read cs).Sublist (carried cs) := by
  induction cs with
  | nil => exact List.Sublist.refl _
  | cons c older ih =>
    unfold read at ih ⊢
    rw [List.reverse_cons, List.flatMap_append, List.flatMap_singleton]
    exact ih.append (List.sublist_append_left _ _)

/-- A connection that carries less. -/
theorem carried_set (hi : cs[i]? = some c) (hc : c'.carried.Sublist c.carried) :
    (carried (cs.set i c')).Sublist (carried cs) := by
  induction cs generalizing i with
  | nil => exact List.Sublist.refl _
  | cons c₀ older ih =>
    cases i with
    | zero =>
      rw [List.getElem?_cons_zero] at hi
      cases hi
      exact List.Sublist.append (List.Sublist.refl _) hc
    | succ i =>
      rw [List.getElem?_cons_succ] at hi
      exact (ih hi).append (List.Sublist.refl _)

theorem carried_modify {f : Channel → Channel} (hf : ∀ c, (f c).carried.Sublist c.carried) (i : ℕ) :
    (carried (cs.modify i f)).Sublist (carried cs) := by
  cases hi : cs[i]? with
  | none =>
    rw [List.modify_eq_self (List.getElem?_eq_none_iff.mp hi)]
  | some c =>
    rw [List.modify_eq_set_getElem?, hi]
    exact carried_set hi (hf c)

/-- What the client sends goes to the end. -/
theorem carried_send (cs : List Channel) (ps : List Packet) :
    (carried (cs.modify 0 (·.send ps))).Sublist (carried cs ++ commands ps) := by
  cases cs with
  | nil => exact List.nil_sublist _
  | cons c older =>
    show (carried older ++ (commands (taken c.worker) ++ commands (c.up ++ ps))).Sublist _
    rw [commands_append, carried, Channel.carried, List.append_assoc, List.append_assoc]

end Carried

section Taken
variable {w : Worker}

/-- The worker's own steps take no packet. -/
theorem ipc_taken (w : Worker) (s : Store) (env : AllocEnv) : taken (w.onIpc s env).1 = taken w := by
  cases hpc : w.pc with
  | touch p =>
    rw [taken_touch hpc]
    simp only [Worker.onIpc, hpc]
    exact (taken_inside (dispatch_inside _ p)).trans (received_got _ p)
  | save a base =>
    have hold : taken w = received w.io := taken_handled fun p h => by
      rw [hpc] at h
      cases h
    rw [hold]
    simp only [Worker.onIpc, hpc]
    exact (taken_inside (afterSave_inside _ a)).trans rfl
  | alloc base =>
    have hold : taken w = received w.io := taken_handled fun p h => by
      rw [hpc] at h
      cases h
    rw [hold]
    simp only [Worker.onIpc, hpc]
    split
    · exact List.append_nil _
    · exact List.append_nil _
  | load sid =>
    have hold : taken w = received w.io := taken_handled fun p h => by
      rw [hpc] at h
      cases h
    rw [hold]
    simp only [Worker.onIpc, hpc]
    split
    · simp only [Worker.attach]
      exact (taken_inside (loopTop_inside _)).trans rfl
    · exact List.append_nil _
  | handshake => simp only [Worker.onIpc, hpc]
  | recv => simp only [Worker.onIpc, hpc]
  | closed => simp only [Worker.onIpc, hpc]

theorem recv_none_taken (w : Worker) : (taken (w.onRecv none)).Sublist (taken w) := by
  have hclose : (taken w.close).Sublist (taken w) := by
    show (received w.io ++ []).Sublist _
    exact List.Sublist.append (List.Sublist.refl _) (List.nil_sublist _)
  cases hpc : w.pc with
  | handshake =>
    simp only [Worker.onRecv, hpc]
    exact hclose
  | recv =>
    simp only [Worker.onRecv, hpc]
    exact hclose
  | alloc base => simp only [Worker.onRecv, hpc, List.Sublist.refl]
  | load sid => simp only [Worker.onRecv, hpc, List.Sublist.refl]
  | save a base => simp only [Worker.onRecv, hpc, List.Sublist.refl]
  | touch p => simp only [Worker.onRecv, hpc, List.Sublist.refl]
  | closed => simp only [Worker.onRecv, hpc, List.Sublist.refl]

/-- A packet that is read is taken, or lost in the handshake. -/
theorem recv_some_taken (hl : w.pc.listens = true) (p : Packet) :
    (taken (w.onRecv (some p))).Sublist (taken w ++ [p]) := by
  have hold : taken w = received w.io := taken_handled fun q h => by
    rw [h] at hl
    cases hl
  have hdrop : ∀ w' : Worker, received w'.io = received w.io → (∀ q, w'.pc ≠ .touch q) →
      (taken w').Sublist (taken w ++ [p]) := by
    intro w' hr hpc'
    rw [taken_handled hpc', hr, hold]
    exact List.sublist_append_left _ _
  cases hpc : w.pc with
  | handshake =>
    have hnone : ∀ q, w.pc ≠ .touch q := fun q h => by
      rw [hpc] at h
      cases h
    simp only [Worker.onRecv, hpc]
    unfold Worker.greet
    split
    · exact hdrop (w.send .pong) rfl hnone
    split
    · exact hdrop _ rfl fun q h => by cases h
    split
    · split
      · exact hdrop w.close rfl fun q h => by cases h
      · exact hdrop _ rfl fun q h => by cases h
    · exact hdrop w rfl hnone
  | recv =>
    simp only [Worker.onRecv, hpc]
    rw [hold]
    exact List.Sublist.refl _
  | alloc base => simp [hpc, Pc.listens] at hl
  | load sid => simp [hpc, Pc.listens] at hl
  | save a base => simp [hpc, Pc.listens] at hl
  | touch p => simp [hpc, Pc.listens] at hl
  | closed => simp [hpc, Pc.listens] at hl

theorem Channel.serve_carried (c : Channel) (store : Store) (gone : Bool) (env : AllocEnv) :
    (c.serve store gone env).1.carried.Sublist c.carried := by
  obtain ⟨w, up, down⟩ := c
  unfold Channel.serve Channel.carried
  simp only
  unfold serveStep
  split
  · rename_i hl
    cases up with
    | nil =>
      simp only
      split
      · exact ((recv_none_taken w).filter _).append (List.Sublist.refl _)
      · exact List.Sublist.refl _
    | cons p ps =>
      simp only
      have htaken := (recv_some_taken hl p).filter fun p =>
        decide (p.op = opPlayCard ∨ p.op = opEndTurn)
      have hsplit : commands (taken w) ++ commands (p :: ps) =
          commands (taken w ++ [p]) ++ commands ps := by
        have hcons : commands (p :: ps) = commands [p] ++ commands ps := commands_append [p] ps
        rw [hcons, commands_append, List.append_assoc]
      rw [hsplit]
      exact List.Sublist.append htaken (List.Sublist.refl (commands ps))
  · simp only [ipc_taken]
    exact List.Sublist.refl _

end Taken

section Once
variable {s : Net}

/-- Every command of the GUI was carried by at most one connection, once, or waits in the
pipe. -/
def Once (s : Net) : Prop :=
  (carried s.channels ++ s.gui.pipe.map NetCmd.packet).Sublist (s.gui.asked.map NetCmd.packet)

/-- A click writes one command or none. -/
theorem click_pipe (c : Gui) (t : Target) :
    (∃ cmd, (c.click t).pipe = c.pipe ++ [cmd] ∧ (c.click t).asked = c.asked ++ [cmd]) ∨
      ((c.click t).pipe = c.pipe ∧ (c.click t).asked = c.asked) := by
  unfold Gui.click
  split
  · cases t with
    | endButton => exact Or.inl ⟨.endTurn, rfl, rfl⟩
    | elsewhere => exact Or.inr ⟨rfl, rfl⟩
    | card i =>
      simp only
      split
      · split
        · exact Or.inl ⟨_, rfl, rfl⟩
        · exact Or.inr ⟨rfl, rfl⟩
      · exact Or.inr ⟨rfl, rfl⟩
  · exact Or.inr ⟨rfl, rfl⟩

/-- Nothing is asked, and what is carried does not grow. -/
theorem Once.less (h : Once s) {s' : Net} (hc : (carried s'.channels).Sublist (carried s.channels))
    (hp : s'.gui.pipe = s.gui.pipe) (ha : s'.gui.asked = s.gui.asked) : Once s' := by
  unfold Once
  rw [hp, ha]
  exact (hc.append (List.Sublist.refl _)).trans h

theorem take_pipe (c : Gui) (m : Msg) : (c.take m).pipe = c.pipe ∧ (c.take m).asked = c.asked := by
  cases m with
  | resumeResp ok sid =>
    unfold Gui.take
    simp only
    split
    · exact ⟨rfl, rfl⟩
    · exact ⟨rfl, rfl⟩
  | state st => exact ⟨rfl, rfl⟩
  | hand hand => exact ⟨rfl, rfl⟩
  | loginResp ok => exact ⟨rfl, rfl⟩
  | pong => exact ⟨rfl, rfl⟩
  | error code msg => exact ⟨rfl, rfl⟩

theorem Once.input (h : Once s) (k : GuiInput) : Once (s.step (.input k)) := by
  have hsend := carried_send s.channels (s.gui.react k).2
  cases k with
  | frame =>
    refine h.less ?_ rfl rfl
    have hnil : commands (s.gui.react .frame).2 = [] := rfl
    rw [hnil, List.append_nil] at hsend
    exact hsend
  | click t =>
    have hcarried : (carried (s.step (.input (.click t))).channels).Sublist (carried s.channels) := by
      have hnil : commands (s.gui.react (.click t)).2 = [] := rfl
      rw [hnil, List.append_nil] at hsend
      exact hsend
    rcases click_pipe s.gui t with ⟨cmd, hp, ha⟩ | ⟨hp, ha⟩
    · show (carried _ ++ (s.gui.click t).pipe.map NetCmd.packet).Sublist
        ((s.gui.click t).asked.map NetCmd.packet)
      rw [hp, ha, List.map_append, List.map_append, ← List.append_assoc]
      have hold : Once { s with channels := (s.step (.input (.click t))).channels } :=
        h.less hcarried rfl rfl
      exact List.Sublist.append hold (List.Sublist.refl _)
    · exact h.less hcarried hp ha
  | forward =>
    cases hon : s.gui.online with
    | false =>
      have hreact : s.gui.react .forward = (s.gui, []) := by simp only [Gui.react, hon]
      rw [hreact] at hsend
      simp only [Net.step, hreact]
      refine h.less ?_ rfl rfl
      rw [← List.append_nil (carried s.channels)]
      exact hsend
    | true =>
      cases hpipe : s.gui.pipe with
      | nil =>
        have hreact : s.gui.react .forward = (s.gui, []) := by simp only [Gui.react, hon, hpipe]
        rw [hreact] at hsend
        simp only [Net.step, hreact]
        refine h.less ?_ rfl rfl
        rw [← List.append_nil (carried s.channels)]
        exact hsend
      | cons cmd rest =>
        have hreact : s.gui.react .forward = ({ s.gui with pipe := rest }, [cmd.packet]) := by
          simp only [Gui.react, hon, hpipe]
        rw [hreact, commands_command] at hsend
        simp only [Net.step, hreact]
        have hold := h
        unfold Once at hold ⊢
        rw [hpipe, List.map_cons] at hold
        refine List.Sublist.trans ?_ hold
        rw [← List.singleton_append (l := rest.map NetCmd.packet), ← List.append_assoc]
        exact hsend.append (List.Sublist.refl _)
  | ping =>
    have hreact : ∃ ps, s.gui.react .ping = (s.gui, ps) ∧ commands ps = [] := by
      cases hon : s.gui.online with
      | true => exact ⟨[⟨opPing, []⟩], by simp [Gui.react, hon], rfl⟩
      | false => exact ⟨[], by simp [Gui.react, hon], rfl⟩
    obtain ⟨ps, hr, hnil⟩ := hreact
    rw [hr, hnil, List.append_nil] at hsend
    simp only [Net.step, hr]
    exact h.less hsend rfl rfl

theorem Once.step (h : Once s) (m : NetMove) : Once (s.step m) := by
  cases m with
  | input k => exact h.input k
  | connect rng =>
    simp only [Net.step]
    split
    · exact h
    · have hhello : commands [s.hello] = [] := by
        unfold Net.hello
        split
        · rfl
        · rfl
      refine h.less ?_ rfl rfl
      show (carried s.channels ++ ([] ++ commands [s.hello])).Sublist _
      rw [hhello, List.append_nil, List.append_nil]
  | take =>
    simp only [Net.step]
    split
    · rename_i worker up m ms older _ hch
      obtain ⟨hp, ha⟩ := take_pipe s.gui m
      refine h.less ?_ hp ha
      rw [hch]
      exact List.Sublist.refl _
    · exact h
  | lost =>
    simp only [Net.step]
    split
    · exact h.less (List.Sublist.refl _) rfl rfl
    · exact h
  | serve i env =>
    cases hi : s.channels[i]? with
    | none =>
      simp only [Net.step, hi]
      exact h
    | some c =>
      simp only [Net.step, hi]
      exact h.less (carried_set hi (c.serve_carried _ _ _)) rfl rfl
  | cut i =>
    simp only [Net.step]
    split
    · exact h
    · refine h.less (carried_modify (fun c => ?_) i) rfl rfl
      exact List.Sublist.append (List.Sublist.refl _) (List.nil_sublist _)
  | other c => exact h

theorem once_start (store : Store) : Once (Net.start store) := List.Sublist.refl _

end Once

/-- However often the GUI loses its connection and whatever is lost with it: the
commands its workers read are, connection by connection, some of those that were
clicked, in their order and each at most once. -/
theorem commands_at_most_once (store : Store) (ms : List NetMove) :
    let s := ms.foldl Net.step (Net.start store)
    (read s.channels).Sublist (s.gui.asked.map NetCmd.packet) := by
  intro s
  have hs : Once s := Run.foldl_invariant (I := Once) (fun _ m h => h.step m) ms (once_start store)
  have hread : (read s.channels).Sublist (carried s.channels) := read_carried s.channels
  have hwait : (carried s.channels).Sublist (carried s.channels ++ s.gui.pipe.map NetCmd.packet) :=
    List.sublist_append_left _ _
  exact (hread.trans hwait).trans hs

/-! ### The session is kept -/

/-- A `resume_req_t` is read back as it was written. -/
theorem sessionIdOf_request (sid : UInt64) : sessionIdOf (resumeRequest sid).payload = sid := by
  have hlen : (resumeReqT.put sid).length = 8 := resumeReqT.put_length sid
  have hget : resumeReqT.get (resumeReqT.put sid) = some sid := resumeReqT.get_put sid
  have hread : resumeReqT.get (resumeReqT.put sid) =
      some (UInt64.ofNat (Bytes.decode (resumeReqT.put sid).reverse)) := rfl
  show UInt64.ofNat (((resumeReqT.put sid).take 8).foldr (fun b acc => b.toNat + 256 * acc) 0) = sid
  rw [List.take_of_length_le (Nat.le_of_eq hlen)]
  rw [hread, Bytes.decode, List.foldl_reverse] at hget
  have hfold : (resumeReqT.put sid).foldr (fun b acc => b.toNat + 256 * acc) 0 =
      (resumeReqT.put sid).foldr (fun b acc => acc * 256 + b.toNat) 0 := by
    congr 1
    funext b acc
    omega
  rw [hfold]
  exact Option.some.inj hget

/-- No answer to a resume, and no id of a login. -/
def Mute (m : Msg) : Prop := ∀ ok sid, m ≠ .resumeResp ok sid

/-- If the message names a session, it is this one, accepted. -/
def Names (sid : UInt64) (m : Msg) : Prop := ∀ ok sid', m = .resumeResp ok sid' → ok = 1 ∧ sid' = sid

theorem mute_plain (m : Msg) (h : Msg.greets m = false) : Mute m := by
  rintro ok sid rfl
  cases h

theorem Mute.names {m : Msg} (h : Mute m) (sid : UInt64) : Names sid m := fun ok sid' he =>
  absurd he (h ok sid')

theorem names_own (sid : UInt64) : Names sid (.resumeResp 1 sid) := by
  intro ok sid' he
  cases he
  exact ⟨rfl, rfl⟩

theorem names_login (sid : UInt64) : Names sid (.loginResp 1) := fun _ _ he => by cases he

/-- The worker is still in its handshake, or has not told the id of its login yet. -/
def Pc.silent (pc : Pc) : Bool := pc.greeting || pc.opening

/-- A worker names a session only when it is past its handshake, and then its own; it
loads only ids that are in the store, and its own is. -/
structure Told (store : Store) (w : Worker) : Prop where
  silent : Pc.silent w.pc = true → Sends Mute w.io
  names : Sends (Names w.mySid) w.io
  loads : ∀ sid, w.pc = .load sid → Listed store sid
  mine : w.mySid ≠ 0 → Listed store w.mySid

section Told
variable {store store' : Store} {w w' : Worker}

theorem told_init (store : Store) (rng : ℕ → ℕ) : Told store (Worker.init rng) where
  silent _ _ hm := absurd hm List.not_mem_nil
  names _ hm := absurd hm List.not_mem_nil
  loads _ h := by cases h
  mine h := absurd rfl h

theorem Told.later (h : Told store w) (hs : ∀ sid, Listed store sid → Listed store' sid) :
    Told store' w := ⟨h.silent, h.names, fun sid hpc => hs sid (h.loads sid hpc),
      fun hz => hs _ (h.mine hz)⟩

/-- Inside the session nothing is named but the worker's own id. -/
theorem told_inside {w₀ : Worker} (hin : Inside w₀ w) (hnames : Sends (Names w.mySid) w.io)
    (hmine : w.mySid ≠ 0 → Listed store w.mySid) : Told store w := by
  have hloud : Pc.silent w.pc = false := by
    show (w.pc.greeting || w.pc.opening) = false
    rw [hin.greeting, hin.opening]
    rfl
  refine ⟨fun hs => ?_, hnames, fun sid hpc => ?_, hmine⟩
  · rw [hloud] at hs
    cases hs
  · have hg := hin.greeting
    rw [hpc] at hg
    cases hg

theorem Told.onIpc (h : Told store w) (env : AllocEnv) :
    Told (w.onIpc store env).2 (w.onIpc store env).1 := by
  have hlater : ∀ sid, Listed store sid → Listed (w.onIpc store env).2 sid :=
    fun sid hs => listed_onIpc hs w env
  have hplain : ∀ m, Msg.greets m = false → Names w.mySid m := fun m hm =>
    (mute_plain m hm).names w.mySid
  cases hpc : w.pc with
  | alloc base =>
    have hmute : Sends Mute w.io := h.silent (by rw [hpc]; rfl)
    have hself := alloc_cases store env
    simp only [Worker.onIpc, hpc] at hlater ⊢
    split
    · rename_i hz
      rw [if_pos hz] at hlater
      have hfull := mute_plain (.error (-999) "server full") rfl
      refine ⟨fun _ => hmute.send hfull, h.names.send (hfull.names _), fun sid hload => ?_,
        fun hm => hlater _ (h.mine hm)⟩
      cases hload
    · rename_i hz
      refine ⟨fun _ => hmute, fun m hm => (hmute m hm).names _, fun sid hload => ?_, fun _ => ?_⟩
      · cases hload
      · exact lookup_alloc_self store hz
  | load sid =>
    have hmute : Sends Mute w.io := h.silent (by rw [hpc]; rfl)
    have hfound := h.loads sid hpc
    obtain ⟨⟨st, hand⟩, hl⟩ := Option.isSome_iff_exists.mp hfound
    have hload := load_found store sid w.game.st w.game.hand env.seen hl
    have hstore := hlater sid hfound
    simp only [Worker.onIpc, hpc] at hlater hstore ⊢
    generalize ipcLoadSession store sid w.game.st w.game.hand env.seen = q at hload hlater hstore ⊢
    obtain ⟨store', rc, st', hand'⟩ := q
    simp only [Prod.mk.injEq] at hload
    obtain ⟨rfl, rfl, rfl⟩ := hload
    simp only [if_true] at hlater hstore ⊢
    have hnames : Sends (Names sid) w.io := fun m hm => (hmute m hm).names sid
    have hattach := hnames.attach (fun m hm => (mute_plain m hm).names sid) (names_own sid) st' hand'
    have hin : Inside _ (w.attach sid st' hand') := loopTop_inside _
    have hsid : (w.attach sid st' hand').mySid = sid := hin.sid
    refine told_inside hin ?_ ?_
    · rw [hsid]
      exact hattach
    · rw [hsid]
      exact fun _ => hstore
  | save a base =>
    have hsaved : Sends (Names w.mySid) (w.onIpc store env).1.io := by
      refine h.names.onIpc hplain store env (fun _ _ => ⟨names_login _, names_own _⟩) ?_ ?_
      · intro sid hload
        rw [hpc] at hload
        cases hload
      · intro sid hload
        rw [hpc] at hload
        cases hload
    simp only [Worker.onIpc, hpc] at hlater hsaved ⊢
    have hin := afterSave_inside ⟨.save a base, w.mySid, w.game, .saved a w.game.st w.game.hand
      (ipcSaveSession store w.mySid w.game.st w.game.hand env.seen).2 :: w.io⟩ a
    refine told_inside hin ?_ ?_
    · rw [hin.sid]
      exact hsaved
    · rw [hin.sid]
      exact fun hz => hlater _ (h.mine hz)
  | touch p =>
    have hgot : Sends (Names w.mySid) (w.onIpc store env).1.io := by
      refine h.names.onIpc hplain store env (fun _ _ => ⟨names_login _, names_own _⟩) ?_ ?_
      · intro sid hload
        rw [hpc] at hload
        cases hload
      · intro sid hload
        rw [hpc] at hload
        cases hload
    simp only [Worker.onIpc, hpc] at hlater hgot ⊢
    have hin := dispatch_inside ⟨.touch p, w.mySid, w.game, .got p :: w.io⟩ p
    refine told_inside hin ?_ ?_
    · rw [hin.sid]
      exact hgot
    · rw [hin.sid]
      exact fun hz => hlater _ (h.mine hz)
  | handshake =>
    simp only [Worker.onIpc, hpc]
    exact h
  | recv =>
    simp only [Worker.onIpc, hpc]
    exact h
  | closed =>
    simp only [Worker.onIpc, hpc]
    exact h

theorem Told.onRecv_none (h : Told store w) : Told store (w.onRecv none) := by
  have hclose : Told store w.close :=
    ⟨fun hs => (by cases hs), h.names, fun _ hload => (by cases hload), h.mine⟩
  cases hpc : w.pc with
  | handshake =>
    simp only [Worker.onRecv, hpc]
    exact hclose
  | recv =>
    simp only [Worker.onRecv, hpc]
    exact hclose
  | alloc base =>
    simp only [Worker.onRecv, hpc]
    exact h
  | load sid =>
    simp only [Worker.onRecv, hpc]
    exact h
  | save a base =>
    simp only [Worker.onRecv, hpc]
    exact h
  | touch p =>
    simp only [Worker.onRecv, hpc]
    exact h
  | closed =>
    simp only [Worker.onRecv, hpc]
    exact h

theorem Told.onRecv_some (h : Told store w) (p : Packet)
    (hask : p.op = opResumeReq → Listed store (sessionIdOf p.payload)) :
    Told store (w.onRecv (some p)) := by
  cases hpc : w.pc with
  | handshake =>
    have hmute : Sends Mute w.io := h.silent (by rw [hpc]; rfl)
    simp only [Worker.onRecv, hpc]
    unfold Worker.greet
    split
    · have hpong := mute_plain .pong rfl
      exact ⟨fun _ => hmute.send hpong, h.names.send (hpong.names _), h.loads, h.mine⟩
    split
    · exact ⟨fun _ => hmute, h.names, fun _ hload => (by cases hload), h.mine⟩
    split
    · rename_i hop
      split
      · exact ⟨fun hs => (by cases hs), h.names, fun _ hload => (by cases hload), h.mine⟩
      · refine ⟨fun _ => hmute, h.names, fun sid hload => ?_, h.mine⟩
        cases hload
        exact hask hop
    · exact h
  | recv =>
    simp only [Worker.onRecv, hpc]
    exact ⟨fun hs => (by cases hs), h.names, fun _ hload => (by cases hload), h.mine⟩
  | alloc base =>
    simp only [Worker.onRecv, hpc]
    exact h
  | load sid =>
    simp only [Worker.onRecv, hpc]
    exact h
  | save a base =>
    simp only [Worker.onRecv, hpc]
    exact h
  | touch p =>
    simp only [Worker.onRecv, hpc]
    exact h
  | closed =>
    simp only [Worker.onRecv, hpc]
    exact h

end Told

/-! ### The connections of the client -/

/-- What the client can read was sent by the worker, and a resume on its way asks for an
id in the store. -/
structure Channel.Sound (store : Store) (c : Channel) : Prop where
  told : Told store c.worker
  down : ∀ m ∈ c.down, Io.sent m ∈ c.worker.io
  asks : ∀ p ∈ c.up, p.op = opResumeReq → Listed store (sessionIdOf p.payload)

/-- The worker of the connection is about to be asked for session `sid`, is loading it,
or serves it. -/
inductive Channel.Resumes (sid : UInt64) (c : Channel) : Prop
  | asked {ps : List Packet} (pc : c.worker.pc = .handshake) (up : c.up = resumeRequest sid :: ps)
  | loading (pc : c.worker.pc = .load sid)
  | attached (pc : c.worker.pc.greeting = false) (mine : c.worker.mySid = sid)

section Channels
variable {store store' : Store} {c : Channel} {sid : UInt64}

theorem Channel.Sound.later (h : c.Sound store) (hs : ∀ sid, Listed store sid → Listed store' sid) :
    c.Sound store' := ⟨h.told.later hs, h.down, fun p hp hop => hs _ (h.asks p hp hop)⟩

theorem Channel.Sound.send (h : c.Sound store) {ps : List Packet}
    (hps : ∀ p ∈ ps, p.op ≠ opResumeReq) : (c.send ps).Sound store := by
  refine ⟨h.told, h.down, fun p hp hop => ?_⟩
  rcases List.mem_append.mp hp with hp | hp
  · exact h.asks p hp hop
  · exact absurd hop (hps p hp)

theorem Channel.Resumes.send (h : c.Resumes sid) (ps : List Packet) : (c.send ps).Resumes sid := by
  cases h with
  | @asked rest pc up =>
    have hup : (c.send ps).up = resumeRequest sid :: (rest ++ ps) := by
      show c.up ++ ps = _
      rw [up]
      rfl
    exact .asked pc hup
  | loading pc => exact .loading pc
  | attached pc mine => exact .attached pc mine

theorem serve_listed (c : Channel) (gone : Bool) (env : AllocEnv) (h : Listed store sid) :
    Listed (c.serve store gone env).2 sid := by
  show Listed (serveStep c.worker store c.up gone env).2.1 sid
  unfold serveStep
  split
  · split
    · exact h
    · split
      · exact h
      · exact h
  · exact listed_onIpc h c.worker env

theorem Channel.Sound.serve (h : c.Sound store) (gone : Bool) (env : AllocEnv) :
    (c.serve store gone env).1.Sound (c.serve store gone env).2 := by
  obtain ⟨htold, hdown, hasks⟩ := h
  have hgrow := serveStep_io c.worker store c.up gone env
  have hlater : ∀ sid, Listed store sid → Listed (c.serve store gone env).2 sid :=
    fun sid hs => serve_listed c gone env hs
  constructor
  · show Told (serveStep c.worker store c.up gone env).2.1 (serveStep c.worker store c.up gone env).1
    unfold serveStep
    split
    · split
      · rename_i p ps hup
        exact htold.onRecv_some p (hasks p (by rw [hup]; exact List.mem_cons_self))
      · split
        · exact htold.onRecv_none
        · exact htold
    · exact htold.onIpc env
  · intro m hm
    rcases List.mem_append.mp hm with hm | hm
    · exact hgrow.subset (hdown m hm)
    · exact mem_sent.mp (List.mem_of_mem_drop hm)
  · intro p hp hop
    refine hlater _ (hasks p ?_ hop)
    have hsub : ∀ q ∈ (serveStep c.worker store c.up gone env).2.2, q ∈ c.up := by
      intro q hq
      unfold serveStep at hq
      split at hq
      · split at hq
        · rename_i p' ps hup
          rw [hup]
          exact List.mem_cons_of_mem _ hq
        · split at hq
          · cases hq
          · cases hq
      · exact hq
    exact hsub p hp

/-- The worker of the connection in use does not lose the session. -/
theorem Channel.Resumes.serve (h : c.Resumes sid) (hs : c.Sound store) (env : AllocEnv) :
    (c.serve store false env).1.Resumes sid := by
  obtain ⟨w, up, down⟩ := c
  cases h with
  | @asked ps pc hup =>
    simp only at pc hup
    have hresume : resumeRequest sid = ⟨opResumeReq, resumeReqT.put sid⟩ := rfl
    have hlen : ¬ (resumeReqT.put sid).length < 8 := by
      rw [resumeReqT.put_length sid]
      decide
    have hping : ¬ opResumeReq = opPing := by decide
    have hlogin : ¬ opResumeReq = opLoginReq := by decide
    have hid : sessionIdOf (resumeReqT.put sid) = sid := sessionIdOf_request sid
    refine .loading ?_
    simp only [Channel.serve, serveStep, pc, hup, Pc.listens, if_true, Worker.onRecv, hresume,
      Worker.greet, if_neg hping, if_neg hlogin, if_neg hlen, hid]
  | loading pc =>
    simp only at pc
    obtain ⟨⟨st, hand⟩, hl⟩ := Option.isSome_iff_exists.mp (hs.told.loads sid pc)
    have hload := load_found store sid w.game.st w.game.hand env.seen hl
    simp only [Channel.serve, serveStep, pc, Pc.listens, Bool.false_eq_true, if_false, Worker.onIpc]
    generalize ipcLoadSession store sid w.game.st w.game.hand env.seen = q at hload ⊢
    obtain ⟨store', rc, st', hand'⟩ := q
    simp only [Prod.mk.injEq] at hload
    obtain ⟨rfl, rfl, rfl⟩ := hload
    simp only [if_true]
    have hin : Inside _ (w.attach sid st' hand') := loopTop_inside _
    exact .attached hin.greeting hin.sid
  | attached pc mine =>
    simp only at pc mine
    show Channel.Resumes sid ⟨(serveStep w store up false env).1, _, _⟩
    cases hpc : w.pc with
    | recv =>
      simp only [serveStep, hpc, Pc.listens, if_true, Worker.onRecv]
      cases up with
      | nil =>
        simp only [Bool.false_eq_true, if_false]
        exact .attached pc mine
      | cons p ps => exact .attached rfl mine
    | touch p =>
      have hin := dispatch_inside ⟨.touch p, w.mySid, w.game, .got p :: w.io⟩ p
      simp only [serveStep, hpc, Pc.listens, Bool.false_eq_true, if_false, Worker.onIpc]
      exact .attached hin.greeting (hin.sid.trans mine)
    | save a base =>
      have hin := afterSave_inside ⟨.save a base, w.mySid, w.game, .saved a w.game.st w.game.hand
        (ipcSaveSession store w.mySid w.game.st w.game.hand env.seen).2 :: w.io⟩ a
      simp only [serveStep, hpc, Pc.listens, Bool.false_eq_true, if_false, Worker.onIpc]
      exact .attached hin.greeting (hin.sid.trans mine)
    | closed =>
      simp only [serveStep, hpc, Pc.listens, Bool.false_eq_true, if_false, Worker.onIpc]
      exact .attached pc mine
    | handshake =>
      rw [hpc] at pc
      cases pc
    | alloc base =>
      rw [hpc] at pc
      cases pc
    | load sid =>
      rw [hpc] at pc
      cases pc

end Channels

/-- The id the client remembers is in the store, and the connection in use is about it. -/
structure Kept (s : Net) : Prop where
  known : s.sid ≠ 0 → Listed s.store s.sid
  sound : ∀ c ∈ s.channels, c.Sound s.store
  current : s.gui.online = true → s.sid ≠ 0 →
    ∀ c older, s.channels = c :: older → c.Resumes s.sid

section Kept
variable {s : Net}

theorem kept_start (store : Store) : Kept (Net.start store) where
  known h := absurd rfl h
  sound := List.forall_mem_nil _
  current h := by cases h

/-- The GUI's own packets are no resumes. -/
theorem react_asks (c : Gui) (k : GuiInput) : ∀ p ∈ (c.react k).2, p.op ≠ opResumeReq := by
  have hcommand : ∀ cmd : NetCmd, cmd.packet.op ≠ opResumeReq := by
    intro cmd
    cases cmd with
    | endTurn => exact (by decide : opEndTurn ≠ opResumeReq)
    | play idx card => exact (by decide : opPlayCard ≠ opResumeReq)
  cases k with
  | frame => exact List.forall_mem_nil _
  | click t => exact List.forall_mem_nil _
  | forward =>
    unfold Gui.react
    simp only
    split
    · exact List.forall_mem_singleton.mpr (hcommand _)
    · exact List.forall_mem_nil _
  | ping =>
    unfold Gui.react
    simp only
    split
    · exact List.forall_mem_singleton.mpr (by decide : opPing ≠ opResumeReq)
    · exact List.forall_mem_nil _

theorem react_online (c : Gui) (k : GuiInput) : (c.react k).1.online = c.online := by
  cases k with
  | frame => rfl
  | click t =>
    show (c.click t).online = c.online
    unfold Gui.click
    split
    · cases t with
      | endButton => rfl
      | elsewhere => rfl
      | card i =>
        simp only
        split
        · split
          · rfl
          · rfl
        · rfl
    · rfl
  | forward =>
    unfold Gui.react
    simp only
    split
    · rfl
    · rfl
  | ping =>
    unfold Gui.react
    simp only
    split
    · rfl
    · rfl

theorem Kept.input (h : Kept s) (k : GuiInput) : Kept (s.step (.input k)) := by
  have hasks := react_asks s.gui k
  constructor
  · exact h.known
  · exact Scan.modify_forall h.sound (fun c hc => hc.send hasks) 0
  · intro hon hz c older hch
    have hon' : s.gui.online = true := (react_online s.gui k).symm.trans hon
    cases hcs : s.channels with
    | nil =>
      simp only [Net.step, hcs] at hch
      cases hch
    | cons c₀ older₀ =>
      simp only [Net.step, hcs, List.modify_zero_cons, List.cons.injEq] at hch
      obtain ⟨rfl, rfl⟩ := hch
      exact (h.current hon' hz c₀ older₀ hcs).send _

theorem Kept.connect (h : Kept s) (rng : ℕ → ℕ) : Kept (s.step (.connect rng)) := by
  simp only [Net.step]
  split
  · exact h
  · constructor
    · exact h.known
    · refine List.forall_mem_cons.mpr ⟨⟨told_init s.store rng, List.forall_mem_nil _, ?_⟩, h.sound⟩
      refine List.forall_mem_singleton.mpr fun hop => ?_
      unfold Net.hello at hop ⊢
      split
      · rename_i hz
        rw [sessionIdOf_request]
        exact h.known hz
      · rename_i hz
        rw [if_neg hz] at hop
        exact absurd hop (by decide)
    · intro _ hz c older hch
      obtain ⟨rfl, rfl⟩ := List.cons.inj hch
      have hhello : s.hello = resumeRequest s.sid := if_pos hz
      exact .asked rfl (congrArg (fun p => [p]) hhello)

/-- A session named on the connection in use is the one the client remembers. -/
theorem Kept.named (h : Kept s) (hon : s.gui.online = true) {c : Channel} {older : List Channel}
    (hch : s.channels = c :: older) {ok : ℤ} {sid : UInt64} (hm : .resumeResp ok sid ∈ c.down) :
    ok = 1 ∧ sid = c.worker.mySid ∧ c.worker.pc.greeting = false ∧ (s.sid ≠ 0 → sid = s.sid) := by
  have hc : c ∈ s.channels := by
    rw [hch]
    exact List.mem_cons_self
  obtain ⟨htold, hdown, _⟩ := h.sound c hc
  obtain ⟨hok, hsid⟩ := htold.names _ (hdown _ hm) ok sid rfl
  have hloud : ¬ Pc.silent c.worker.pc = true := fun hs =>
    htold.silent hs _ (hdown _ hm) ok sid rfl
  have hgreet : c.worker.pc.greeting = false := by
    cases hg : c.worker.pc.greeting with
    | false => rfl
    | true =>
      refine absurd ?_ hloud
      show (c.worker.pc.greeting || c.worker.pc.opening) = true
      rw [hg]
      rfl
  refine ⟨hok, hsid, hgreet, fun hz => ?_⟩
  cases h.current hon hz c older hch with
  | asked pc up =>
    rw [pc] at hgreet
    cases hgreet
  | loading pc =>
    rw [pc] at hgreet
    cases hgreet
  | attached pc mine => exact hsid.trans mine

theorem Kept.take (h : Kept s) :
    Kept (s.step .take) ∧ (s.sid ≠ 0 → (s.step .take).sid = s.sid) := by
  cases hon : s.gui.online with
  | false =>
    simp only [Net.step, hon]
    exact ⟨h, fun _ => trivial⟩
  | true =>
    cases hch : s.channels with
    | nil =>
      simp only [Net.step, hon, hch]
      exact ⟨h, fun _ => trivial⟩
    | cons c older =>
      obtain ⟨worker, up, down⟩ := c
      cases down with
      | nil =>
        simp only [Net.step, hon, hch]
        exact ⟨h, fun _ => trivial⟩
      | cons m ms =>
        have hall := h.sound
        rw [hch] at hall
        obtain ⟨hhead, holder⟩ := List.forall_mem_cons.mp hall
        have hless : Channel.Sound s.store ⟨worker, up, ms⟩ :=
          ⟨hhead.told, fun m' hm' => hhead.down m' (List.mem_cons_of_mem _ hm'), hhead.asks⟩
        have hsound : ∀ c ∈ (⟨worker, up, ms⟩ :: older : List Channel), c.Sound s.store :=
          List.forall_mem_cons.mpr ⟨hless, holder⟩
        have hstep : s.step .take = { s with
            gui := s.gui.take m
            sid := sidAfter s.sid m
            channels := ⟨worker, up, ms⟩ :: older } := by
          simp only [Net.step, hon, hch]
        -- nothing but an answer to a resume touches the id
        have hother : sidAfter s.sid m = s.sid → (∀ hz : s.sid ≠ 0,
            Channel.Resumes s.sid ⟨worker, up, ms⟩) →
            Kept (s.step .take) ∧ (s.sid ≠ 0 → (s.step .take).sid = s.sid) := by
          intro hsame hres
          rw [hstep, hsame]
          refine ⟨⟨h.known, hsound, fun _ hz c older' hcs => ?_⟩, fun _ => rfl⟩
          obtain ⟨rfl, rfl⟩ := List.cons.inj hcs
          exact hres hz
        have hstays : ∀ hz : s.sid ≠ 0, Channel.Resumes s.sid ⟨worker, up, ms⟩ := by
          intro hz
          cases h.current hon hz _ _ hch with
          | asked pc up => exact .asked pc up
          | loading pc => exact .loading pc
          | attached pc mine => exact .attached pc mine
        cases m with
        | resumeResp ok sid =>
          obtain ⟨rfl, hmine, hgreet, hsame⟩ := h.named hon hch List.mem_cons_self
          have hafter : sidAfter s.sid (.resumeResp 1 sid) = sid := by
            simp only [sidAfter]
            exact if_pos (by decide)
          by_cases hz : s.sid = 0
          · rw [hstep, hafter]
            refine ⟨⟨fun hne => ?_, hsound, fun _ _ c older' hcs => ?_⟩, fun hne => absurd hz hne⟩
            · show Listed s.store sid
              rw [hmine]
              refine hhead.told.mine ?_
              rw [← hmine]
              exact hne
            · obtain ⟨rfl, rfl⟩ := List.cons.inj hcs
              exact .attached hgreet hmine.symm
          · exact hother (hafter.trans (hsame hz)) hstays
        | loginResp ok => exact hother rfl hstays
        | pong => exact hother rfl hstays
        | state st => exact hother rfl hstays
        | hand hand => exact hother rfl hstays
        | error code msg => exact hother rfl hstays

theorem Kept.serve (h : Kept s) (i : ℕ) (env : AllocEnv) : Kept (s.step (.serve i env)) := by
  cases hi : s.channels[i]? with
  | none =>
    simp only [Net.step, hi]
    exact h
  | some c =>
    simp only [Net.step, hi]
    have hc : c ∈ s.channels := List.mem_of_getElem? hi
    have hlater : ∀ sid, Listed s.store sid → Listed (c.serve s.store (!s.inUse i) env).2 sid :=
      fun sid hs => serve_listed c _ env hs
    constructor
    · exact fun hz => hlater _ (h.known hz)
    · refine Scan.set_forall ?_ ((h.sound c hc).serve _ env)
      exact fun c' hc' => (h.sound c' hc').later hlater
    · intro hon hz c' older hch
      cases hcs : s.channels with
      | nil =>
        rw [hcs] at hc
        cases hc
      | cons c₀ older₀ =>
        have hold := h.current hon hz c₀ older₀ hcs
        cases i with
        | zero =>
          have huse : s.inUse 0 = true := by
            unfold Net.inUse
            rw [hon]
            rfl
          rw [hcs] at hi hch
          cases hi
          simp only [List.set_cons_zero, List.cons.injEq] at hch
          obtain ⟨rfl, rfl⟩ := hch
          rw [huse]
          exact hold.serve (h.sound c hc) env
        | succ i =>
          rw [hcs] at hch
          simp only [List.set_cons_succ, List.cons.injEq] at hch
          obtain ⟨rfl, rfl⟩ := hch
          exact hold

theorem Kept.cut (h : Kept s) (i : ℕ) : Kept (s.step (.cut i)) := by
  simp only [Net.step]
  split
  · exact h
  · rename_i huse
    constructor
    · exact h.known
    · refine Scan.modify_forall h.sound (fun c hc => ?_) i
      exact ⟨hc.told, hc.down, List.forall_mem_nil _⟩
    · intro hon hz c' older hch
      cases hcs : s.channels with
      | nil =>
        rw [hcs] at hch
        cases i <;> cases hch
      | cons c₀ older₀ =>
        have hold := h.current hon hz c₀ older₀ hcs
        cases i with
        | zero =>
          refine absurd ?_ huse
          unfold Net.inUse
          rw [hon]
          rfl
        | succ i =>
          rw [hcs] at hch
          simp only [List.modify_succ_cons, List.cons.injEq] at hch
          obtain ⟨rfl, rfl⟩ := hch
          exact hold

theorem Kept.step (h : Kept s) (m : NetMove) :
    Kept (s.step m) ∧ (s.sid ≠ 0 → (s.step m).sid = s.sid) := by
  cases m with
  | input k => exact ⟨h.input k, fun _ => rfl⟩
  | connect rng =>
    refine ⟨h.connect rng, fun _ => ?_⟩
    simp only [Net.step]
    split
    · rfl
    · rfl
  | take => exact h.take
  | lost =>
    simp only [Net.step]
    split
    · exact ⟨⟨h.known, h.sound, fun hon => by cases hon⟩, fun _ => rfl⟩
    · exact ⟨h, fun _ => rfl⟩
  | serve i env =>
    refine ⟨h.serve i env, fun _ => ?_⟩
    simp only [Net.step]
    split
    · rfl
    · rfl
  | cut i =>
    refine ⟨h.cut i, fun _ => ?_⟩
    simp only [Net.step]
    split
    · rfl
    · rfl
  | other c =>
    refine ⟨⟨fun hz => listed_call (h.known hz) c, fun c' hc' => ?_, h.current⟩, fun _ => rfl⟩
    exact (h.sound c' hc').later fun sid hs => listed_call hs c

end Kept

/-- Once the GUI has read a session id it keeps it, through every later loss of its
connection: no resume is ever refused, and every worker it talks to from then on serves
that session. The store is that of one server, and each `ipc` call on it is taken whole. -/
theorem session_kept (store : Store) (ms more : List NetMove) :
    let s := ms.foldl Net.step (Net.start store)
    let s' := (ms ++ more).foldl Net.step (Net.start store)
    (s.sid ≠ 0 → s'.sid = s.sid ∧ Listed s'.store s.sid) ∧
    (∀ c ∈ s.channels, ∀ ok sid, Io.sent (.resumeResp ok sid) ∈ c.worker.io →
      ok = 1 ∧ sid = c.worker.mySid) ∧
    (s.sid ≠ 0 → s.gui.online = true → ∀ c older, s.channels = c :: older →
      c.worker.pc.greeting = false → c.worker.mySid = s.sid) := by
  intro s s'
  have hs : Kept s :=
    Run.foldl_invariant (I := Kept) (fun _ m h => (h.step m).1) ms (kept_start store)
  refine ⟨fun hz => ?_, fun c hc ok sid hm => ?_, fun hz hon c older hch hgreet => ?_⟩
  · have hrun : s' = more.foldl Net.step s := List.foldl_append
    have hlast : Kept s' ∧ s'.sid = s.sid := by
      rw [hrun]
      refine Run.foldl_invariant (I := fun t : Net => Kept t ∧ t.sid = s.sid) ?_ more ⟨hs, rfl⟩
      rintro t m ⟨ht, hsid⟩
      obtain ⟨hkept, hsame⟩ := ht.step m
      exact ⟨hkept, (hsame (by rw [hsid]; exact hz)).trans hsid⟩
    obtain ⟨hkept, hsame⟩ := hlast
    refine ⟨hsame, ?_⟩
    rw [← hsame]
    refine hkept.known ?_
    rw [hsame]
    exact hz
  · exact (hs.sound c hc).told.names _ hm ok sid rfl
  · cases hs.current hon hz c older hch with
    | asked pc up =>
      rw [pc] at hgreet
      cases hgreet
    | loading pc =>
      rw [pc] at hgreet
      cases hgreet
    | attached pc mine => exact mine

end MiniTcg.Client
