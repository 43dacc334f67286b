import MiniTcg.Ipc.Refinement
import MiniTcg.Server.Fleet
import MiniTcg.Server.Resume

/-!
# A resume continues a game that was started

A login publishes its slot in one call, `ipc_alloc_session`, and fills it in the
next, `ipc_save_session`. A load between the two finds the zeroed slot. A fleet
run never resumes from a pair nobody saved exactly when none of its loads falls
into that gap; where two logins were given one id, the first of them to save
closes it for both.
-/
namespace MiniTcg.Server

open MiniTcg.Game MiniTcg.Ipc MiniTcg.Wire

/-- Between `ipc_alloc_session` and the save of the new game. -/
def Pc.opening : Pc → Bool
  | .save .login _ => true
  | _ => false

def Io.pair? : Io → Option (State × Hand)
  | .saved _ st hand _ => some (st, hand)
  | _ => none

/-- The pairs a worker has passed to `ipc_save_session`, newest first. -/
def saves (io : List Io) : List (State × Hand) := io.filterMap Io.pair?

/-- A worker of session `sid` has passed the pair to `ipc_save_session`. -/
def Passed (s : Fleet) (sid : UInt64) (p : State × Hand) : Prop :=
  ∃ w ∈ s.workers, w.mySid = sid ∧ p ∈ saves w.io

/-- A worker was given `sid` and has not yet saved its game. -/
def Opens (s : Fleet) (sid : UInt64) : Prop :=
  ∃ w ∈ s.workers, w.mySid = sid ∧ w.pc.opening = true

/-- A worker on `sid` is past the save of a login. -/
def Plays (s : Fleet) (sid : UInt64) : Prop :=
  ∃ w ∈ s.workers, w.mySid = sid ∧ w.pc.opening = false

/-- The contents of an unfilled slot. -/
def Zeroed (p : State × Hand) : Prop :=
  p.1.pHp = 0 ∧ p.1.aiHp = 0 ∧ p.1.maxMana = 0 ∧ p.1.gameOver = 0 ∧ p.2.n = 0

instance (s : Fleet) (sid : UInt64) (p : State × Hand) : Decidable (Passed s sid p) :=
  List.decidableBEx (fun w : Worker => w.mySid = sid ∧ p ∈ saves w.io) s.workers

instance (s : Fleet) (sid : UInt64) : Decidable (Opens s sid) :=
  List.decidableBEx (fun w : Worker => w.mySid = sid ∧ w.pc.opening = true) s.workers

instance (s : Fleet) (sid : UInt64) : Decidable (Plays s sid) :=
  List.decidableBEx (fun w : Worker => w.mySid = sid ∧ w.pc.opening = false) s.workers

instance (p : State × Hand) : Decidable (Zeroed p) := inferInstanceAs (Decidable (_ ∧ _))

/-- What `ipc_load_session` returns to worker `w`. -/
def Fleet.loaded (s : Fleet) (w : Worker) (sid : UInt64) (env : AllocEnv) : ℤ × State × Hand :=
  (ipcLoadSession s.store sid w.game.st w.game.hand env.seen).2

/-- If the act is a load that succeeds, its pair was saved for that id before,
and it is not the contents of an unfilled slot. -/
def Started (s : Fleet) : Act → Prop
  | .ipc i env => ∀ w ∈ s.workers[i]?.toList, ∀ sid ∈ w.pc.loads.toList,
      (s.loaded w sid env).1 = 0 →
        Passed s sid (s.loaded w sid env).2 ∧ ¬ Zeroed (s.loaded w sid env).2
  | _ => True

/-- If the act is a load, the id it asks for is not in the gap of a login, unless
the same id is played already. -/
def NotInGap (s : Fleet) : Act → Prop
  | .ipc i _ => ∀ w ∈ s.workers[i]?.toList, ∀ sid ∈ w.pc.loads.toList, Opens s sid → Plays s sid
  | _ => True

instance (s : Fleet) : (act : Act) → Decidable (Started s act)
  | .ipc i env =>
    have (w : Worker) := List.decidableBAll (fun sid => (s.loaded w sid env).1 = 0 →
      Passed s sid (s.loaded w sid env).2 ∧ ¬ Zeroed (s.loaded w sid env).2) w.pc.loads.toList
    List.decidableBAll (fun w : Worker => ∀ sid ∈ w.pc.loads.toList, (s.loaded w sid env).1 = 0 →
      Passed s sid (s.loaded w sid env).2 ∧ ¬ Zeroed (s.loaded w sid env).2) s.workers[i]?.toList
  | .fork _ => isTrue trivial
  | .recv _ _ => isTrue trivial

theorem NotInGap.at_load {s : Fleet} {i : ℕ} {env : AllocEnv} {w : Worker} {sid : UInt64}
    (h : NotInGap s (.ipc i env)) (hg : s.workers[i]? = some w) (hpc : w.pc = .load sid) :
    Opens s sid → Plays s sid := by
  refine h w ?_ sid ?_
  · rw [hg]
    exact List.mem_singleton.mpr rfl
  · rw [hpc]
    exact List.mem_singleton.mpr rfl

/-! ### The mana limit -/

section Mana
variable (g : Match)

theorem handlePlayCard_maxMana (st : State) (hand : Hand) (x : Side) (idx : UInt8) :
    (handlePlayCard st hand x idx).1.maxMana = st.maxMana := by
  cases h : playable st.toCore hand idx with
  | none => rw [handlePlayCard_refused x h]
  | some card => rw [(handlePlayCard_ok x h).2, Core.played_maxMana]

theorem phaseTick_maxMana : (phaseTick g).st.maxMana = g.st.maxMana := by
  have hview := congrArg (fun v => v.core.maxMana) (phaseTick_view g)
  refine hview.trans ?_
  show g.view.core.ending.tickAll.check.maxMana = g.st.maxMana
  rw [Core.check_maxMana, (Core.tickAll_fields _).2.2.2.2.2]
  rfl

theorem phaseEnd_maxMana : (phaseEnd g).st.maxMana = g.st.maxMana := by
  unfold phaseEnd
  simp only
  split
  · exact phaseTick_maxMana g
  · rw [enterTurn_core, Core.enter]
    exact phaseTick_maxMana g

theorem aiLoopUpTo_maxMana (k : ℕ) : (aiLoopUpTo k g).st.maxMana = g.st.maxMana := by
  induction k generalizing g with
  | zero => rfl
  | succ k ih =>
    rw [aiLoopUpTo]
    split
    · cases aiBest g.st.toCore g.hand with
      | none => rfl
      | some i => exact (ih (aiPlay g i)).trans (handlePlayCard_maxMana _ _ _ _)
    · rfl

theorem processAiTurn_maxMana : (processAiTurn g).st.maxMana = g.st.maxMana := by
  have hloop : (aiLoop g).st.maxMana = g.st.maxMana := aiLoopUpTo_maxMana g 8
  unfold processAiTurn
  simp only
  split
  · exact (phaseEnd_maxMana _).trans hloop
  · exact hloop

theorem apply_maxMana {a : Action} (ha : a ≠ .login) : (a.apply g).st.maxMana = g.st.maxMana := by
  cases a with
  | login => exact absurd rfl ha
  | play idx => exact handlePlayCard_maxMana _ _ _ _
  | endTurn =>
    rw [Action.apply]
    exact phaseEnd_maxMana g
  | aiTurn top => exact processAiTurn_maxMana g

end Mana

/-! ### What a call does to a worker -/

/-- `w'` has gone on from `w` inside the session, without a new packet. -/
structure Inside (w w' : Worker) : Prop where
  sid : w'.mySid = w.mySid
  got : received w'.io = received w.io
  kept : saves w'.io = saves w.io
  handled : ∀ p, w'.pc ≠ .touch p
  greeting : w'.pc.greeting = false
  opening : w'.pc.opening = false
  mana : w'.game.st.maxMana = w.game.st.maxMana

section Inside
variable {w w' : Worker}

theorem act_inside (w : Worker) {a : Action} (ha : a ≠ .login) : Inside w (w.act a) := by
  refine ⟨rfl, rfl, rfl, nofun, rfl, ?_, apply_maxMana w.game ha⟩
  cases a with
  | login => exact absurd rfl ha
  | play idx => rfl
  | endTurn => rfl
  | aiTurn top => rfl

theorem loopTop_inside (w : Worker) : Inside w w.loopTop := by
  unfold Worker.loopTop
  split
  · exact act_inside w nofun
  · exact ⟨rfl, rfl, rfl, nofun, rfl, rfl, rfl⟩

theorem Answers.inside (h : Answers w w') : Inside w w'.loopTop := by
  have hin := loopTop_inside w'
  cases h with
  | silent => exact hin
  | plain => exact ⟨hin.sid, hin.got, hin.kept, hin.handled, hin.greeting, hin.opening, hin.mana⟩
  | table => exact ⟨hin.sid, hin.got, hin.kept, hin.handled, hin.greeting, hin.opening, hin.mana⟩

theorem dispatch_inside (w : Worker) (p : Packet) : Inside w (w.dispatch p) := by
  rcases dispatch_cases w p with
    ⟨w', hw, ha, _⟩ | ⟨_, _, _, idx, hw, _, _⟩ | ⟨_, _, hw, _, _⟩
  · rw [hw]
    exact ha.inside
  · have hin : Inside w (w.act (.play idx)) := act_inside w nofun
    rcases hw with hw | ⟨rc, hw⟩
    · rw [hw]
      exact hin
    · rw [hw]
      exact ⟨hin.sid, hin.got, hin.kept, hin.handled, hin.greeting, hin.opening, hin.mana⟩
  · rw [hw]
    exact act_inside w nofun

theorem afterSave_inside (w : Worker) (a : Action) : Inside w (w.afterSave a) := by
  have htable : Inside w w.sendTable.loopTop := Answers.table.inside
  cases a with
  | login =>
    have hin := loopTop_inside ((w.send (.loginResp 1)).send (.resumeResp 1 w.mySid)).sendTable
    exact ⟨hin.sid, hin.got, hin.kept, hin.handled, hin.greeting, hin.opening, hin.mana⟩
  | play idx => exact htable
  | endTurn =>
    rw [Worker.afterSave]
    split
    · exact act_inside w (fun h => by cases h)
    · exact htable
  | aiTurn top =>
    cases top with
    | false => exact htable
    | true => exact ⟨rfl, rfl, rfl, fun p h => (by cases h), rfl, rfl, rfl⟩

end Inside

/-- The worker and the store after the pending call of `w`. -/
inductive Effect (s : Store) (env : AllocEnv) (w : Worker) : Worker → Store → Prop
  | rest : Effect s env w w s
  | refused {w' : Worker} (hg : w.pc.greeting = true) (hsid : w'.mySid = w.mySid)
      (hsaves : saves w'.io = saves w.io) (hopen : w'.pc.opening = false)
      (hend : w'.pc = .closed ∨ w'.pc = .handshake) : Effect s env w w' s
  | opened {base : Match} {w' : Worker} (hpc : w.pc = .alloc base)
      (hid : w'.mySid = (ipcAllocSession s env).2) (hne : w'.mySid ≠ 0)
      (hsaves : saves w'.io = saves w.io) (hpc' : w'.pc = .save .login base)
      (hgame : w'.game = w.game) : Effect s env w w' (ipcAllocSession s env).1
  | resumed {sid : UInt64} {p : State × Hand} {w' : Worker} (hpc : w.pc = .load sid)
      (hl : s.lookup sid = some p)
      (hin : Inside { w with mySid := sid, game := { w.game with st := p.1, hand := p.2 } } w') :
      Effect s env w w' (s.onSlot sid fun e => { e with lastSeen := env.seen }).1
  | saved {a : Action} {base : Match} {w₁ w' : Worker} (hpc : w.pc = .save a base)
      (hin : Inside w₁ w') (hsid : w₁.mySid = w.mySid) (hgame : w₁.game = w.game)
      (hsaves : saves w₁.io = (w.game.st, w.game.hand) :: saves w.io) :
      Effect s env w w' (ipcSaveSession s w.mySid w.game.st w.game.hand env.seen).1
  | touched {p : Packet} {w' : Worker} (hpc : w.pc = .touch p)
      (hin : Inside { w with io := .got p :: w.io } w') :
      Effect s env w w' (ipcTouchSession s w.mySid env.seen).1

theorem onIpc_effect (w : Worker) (s : Store) (env : AllocEnv) :
    Effect s env w (w.onIpc s env).1 (w.onIpc s env).2 := by
  cases hpc : w.pc with
  | alloc base =>
    have hgreet : w.pc.greeting = true := by rw [hpc]; rfl
    simp only [Worker.onIpc, hpc]
    by_cases hz : (ipcAllocSession s env).2 = 0
    · simp only [if_pos hz]
      have hstore : (ipcAllocSession s env).1 = s := by
        unfold ipcAllocSession at hz ⊢
        split
        · rename_i i hi
          rw [hi] at hz
          exact absurd hz (allocId_ne_zero env i)
        · rfl
      rw [hstore]
      exact .refused hgreet rfl rfl rfl (Or.inl rfl)
    · simp only [if_neg hz]
      exact .opened hpc rfl hz rfl rfl rfl
  | load sid =>
    have hgreet : w.pc.greeting = true := by rw [hpc]; rfl
    simp only [Worker.onIpc, hpc]
    cases hl : s.lookup sid with
    | none =>
      rw [load_missing _ _ _ _ _ hl]
      exact .refused hgreet rfl rfl rfl (Or.inr rfl)
    | some p =>
      have hr : ipcLoadSession s sid w.game.st w.game.hand env.seen =
          ((s.onSlot sid fun e => { e with lastSeen := env.seen }).1, 0, p.1, p.2) := by
        unfold ipcLoadSession
        rw [hl]
      rw [hr]
      simp only [if_true]
      have hin := loopTop_inside { w with
        mySid := sid
        game := { w.game with st := pushLog p.1 (text "Player Resumed Session"), hand := p.2 }
        io := .sent (.hand p.2) :: .sent (.state p.1) :: .sent (.resumeResp 1 sid) :: w.io }
      exact .resumed hpc hl ⟨hin.sid, hin.got, hin.kept, hin.handled, hin.greeting, hin.opening, hin.mana⟩
  | save a base =>
    simp only [Worker.onIpc, hpc]
    exact .saved hpc (afterSave_inside _ a) rfl rfl rfl
  | touch p =>
    simp only [Worker.onIpc, hpc]
    exact .touched hpc (hpc ▸ dispatch_inside _ p)
  | handshake | recv | closed =>
    simp only [Worker.onIpc, hpc]
    exact .rest

/-! ### What holds of every run -/

/-- What is known of a worker's session, whatever the loads find. -/
structure Worker.Filed (store : Store) (w : Worker) : Prop where
  fresh : w.pc.greeting = true → w.mySid = 0 ∧ saves w.io = []
  unsaved : w.pc.opening = true → saves w.io = []
  known : w.mySid ≠ 0 ∨ w.pc.opening = true → (store.lookup w.mySid).isSome

structure Books (s : Fleet) : Prop where
  packed : s.store.Packed
  filed : ∀ w ∈ s.workers, w.Filed s.store

section Effect
variable {s s' : Store} {env : AllocEnv} {w w' : Worker}

theorem Inside.filed (h : Inside w w') (hk : w.mySid ≠ 0 → (s.lookup w.mySid).isSome) :
    w'.Filed s := by
  refine ⟨fun hg => ?_, fun ho => ?_, fun hw => ?_⟩
  · rw [h.greeting] at hg
    cases hg
  · rw [h.opening] at ho
    cases ho
  · rw [h.opening, h.sid] at hw
    rw [h.sid]
    exact hk (hw.resolve_right nofun)

theorem Effect.packed (h : Effect s env w w' s') (hp : s.Packed) : s'.Packed := by
  cases h with
  | rest => exact hp
  | refused => exact hp
  | opened => exact packed_alloc hp env
  | resumed => exact packed_onSlot hp _ (keeps_seen env.seen)
  | saved => exact packed_onSlot hp _ (keeps_save _ _ env.seen)
  | touched => exact packed_onSlot hp _ (keeps_seen env.seen)

/-- An id that is found stays found. -/
theorem Effect.known (h : Effect s env w w' s') (hp : s.Packed) {sid : UInt64}
    (hk : (s.lookup sid).isSome) : (s'.lookup sid).isSome := by
  cases h with
  | rest => exact hk
  | refused => exact hk
  | opened =>
    obtain ⟨p, hl⟩ := Option.isSome_iff_exists.mp hk
    rw [hp.lookup_alloc env hl]
    rfl
  | resumed =>
    rw [lookup_seen]
    exact hk
  | saved =>
    by_cases hs : sid = w.mySid
    · rw [hs] at hk ⊢
      rw [lookup_save_same, Option.isSome_map]
      exact hk
    · rw [lookup_save_other _ _ _ _ _ _ hs]
      exact hk
  | touched =>
    rw [lookup_touch]
    exact hk

theorem Effect.filed (h : Effect s env w w' s') (hp : s.Packed) (hw : w.Filed s) :
    w'.Filed s' := by
  have hmono := fun hk : (s.lookup w.mySid).isSome => h.known hp hk
  cases h with
  | rest => exact hw
  | refused hg hsid hsaves hopen _ =>
    obtain ⟨hz, hnone⟩ := hw.fresh hg
    refine ⟨fun _ => ⟨hsid.trans hz, hsaves.trans hnone⟩, fun _ => hsaves.trans hnone, fun hk => ?_⟩
    rw [hopen] at hk
    exact absurd (hsid.trans hz) (hk.resolve_right nofun)
  | opened hpc hid hne hsaves hpc' hgame =>
    have hnone := (hw.fresh (by rw [hpc]; rfl)).2
    refine ⟨fun hg => ?_, fun _ => hsaves.trans hnone, fun _ => ?_⟩
    · rw [hpc'] at hg
      cases hg
    · rw [hid]
      exact lookup_alloc_self s (hid ▸ hne)
  | resumed hpc hl hin =>
    refine hin.filed fun _ => ?_
    rw [lookup_seen, hl]
    rfl
  | saved hpc hin hsid hgame hsaves =>
    refine hin.filed fun hz => ?_
    rw [hsid] at hz ⊢
    exact hmono (hw.known (Or.inl hz))
  | touched hpc hin => exact hin.filed fun hz => hmono (hw.known (Or.inl hz))

/-- Other workers do not notice. -/
theorem Effect.filed_other (h : Effect s env w w' s') (hp : s.Packed) {v : Worker}
    (hv : v.Filed s) : v.Filed s' :=
  ⟨hv.fresh, hv.unsaved, fun hk => h.known hp (hv.known hk)⟩

end Effect

/-- A packet, or its loss, changes neither the session nor the saves. -/
theorem onRecv_still (w : Worker) (r : Option Packet) :
    (w.onRecv r).mySid = w.mySid ∧ saves (w.onRecv r).io = saves w.io ∧
      (w.onRecv r).pc.opening = w.pc.opening ∧
      ((w.onRecv r).pc.greeting = true → w.pc.greeting = true) := by
  unfold Worker.onRecv
  split
  · rename_i p hpc
    unfold Worker.greet
    split
    · exact ⟨rfl, rfl, rfl, id⟩
    · split
      · exact ⟨rfl, rfl, by rw [hpc]; rfl, fun _ => by rw [hpc]; rfl⟩
      · split
        · split
          · exact ⟨rfl, rfl, by rw [hpc]; rfl, nofun⟩
          · exact ⟨rfl, rfl, by rw [hpc]; rfl, fun _ => by rw [hpc]; rfl⟩
        · exact ⟨rfl, rfl, rfl, id⟩
  · rename_i hpc
    exact ⟨rfl, rfl, by rw [hpc]; rfl, nofun⟩
  · rename_i hpc
    exact ⟨rfl, rfl, by rw [hpc]; rfl, nofun⟩
  · rename_i hpc
    exact ⟨rfl, rfl, by rw [hpc]; rfl, nofun⟩
  · exact ⟨rfl, rfl, rfl, id⟩

theorem Worker.Filed.onRecv {store : Store} {w : Worker} (h : w.Filed store) (r : Option Packet) :
    (w.onRecv r).Filed store := by
  obtain ⟨hsid, hsaves, hopen, hgreet⟩ := onRecv_still w r
  refine ⟨fun hg => ?_, fun ho => ?_, fun hk => ?_⟩
  · rw [hsid, hsaves]
    exact h.fresh (hgreet hg)
  · rw [hsaves]
    exact h.unsaved (hopen ▸ ho)
  · rw [hsid, hopen] at hk
    rw [hsid]
    exact h.known hk

theorem init_filed (store : Store) (rng : ℕ → ℕ) : (Worker.init rng).Filed store :=
  ⟨fun _ => ⟨rfl, rfl⟩, nofun, fun hk => absurd rfl (hk.resolve_right nofun)⟩

theorem books_start : Books Fleet.start := ⟨packed_zero, fun _ hw => absurd hw List.not_mem_nil⟩

theorem books_step {s : Fleet} (act : Act) (h : Books s) : Books (s.step act) := by
  cases act with
  | fork rng =>
    refine ⟨h.packed, fun w hw => ?_⟩
    rcases List.mem_append.mp hw with hw | hw
    · exact h.filed w hw
    · rw [List.mem_singleton.mp hw]
      exact init_filed _ rng
  | recv i r => exact ⟨h.packed, Scan.modify_forall h.filed (fun w hw => hw.onRecv r) i⟩
  | ipc i env =>
    cases hg : s.workers[i]? with
    | none =>
      simp only [Fleet.step, hg]
      exact h
    | some w =>
      have he := onIpc_effect w s.store env
      simp only [Fleet.step, hg]
      refine ⟨he.packed h.packed, Scan.set_forall (fun v hv => ?_) ?_⟩
      · exact he.filed_other h.packed (h.filed v hv)
      · exact he.filed h.packed (h.filed w (List.mem_of_getElem? hg))

/-- A session for which a pair was saved is played. -/
theorem Books.plays {s : Fleet} (h : Books s) {sid : UInt64} {p : State × Hand}
    (hp : Passed s sid p) : Plays s sid := by
  obtain ⟨w, hw, hsid, hm⟩ := hp
  refine ⟨w, hw, hsid, ?_⟩
  cases ho : w.pc.opening with
  | false => rfl
  | true =>
    rw [(h.filed w hw).unsaved ho] at hm
    exact absurd hm List.not_mem_nil

theorem Books.not_in_gap {s : Fleet} (h : Books s) (act : Act) (hs : Started s act) :
    NotInGap s act := by
  cases act with
  | fork rng => trivial
  | recv i r => trivial
  | ipc i env =>
    intro w hw sid hl hopen
    obtain ⟨v, hv, hsid, ho⟩ := hopen
    obtain ⟨p, hp⟩ := Option.isSome_iff_exists.mp ((h.filed v hv).known (Or.inr ho))
    rw [hsid] at hp
    have hfound : s.loaded w sid env = (0, p) := load_found _ _ _ _ _ hp
    refine h.plays (p := p) ?_
    have hpass := (hs w hw sid hl (by rw [hfound])).1
    rwa [hfound] at hpass

/-! ### What holds as long as no load falls into a gap -/

/-- Why the store may hold the pair `p` for `sid`: it was saved, or `sid` is in
the gap of its login. -/
def Entry (s : Fleet) (sid : UInt64) (p : State × Hand) : Prop :=
  Passed s sid p ∨ (Opens s sid ∧ ¬ Plays s sid)

/-- The worker is attached to a game, or about to be given an id for one. -/
def Pc.seated : Pc → Bool
  | .alloc _ | .save _ _ | .recv | .touch _ => true
  | _ => false

/-- The games a worker plays and saves have the mana limit a login sets. -/
structure Worker.Funded (w : Worker) : Prop where
  game : w.pc.seated = true → w.game.st.maxMana = 3
  saved : ∀ p ∈ saves w.io, p.1.maxMana = 3

structure Sound (s : Fleet) : Prop extends Books s where
  funded : ∀ w ∈ s.workers, w.Funded
  entry : ∀ sid p, s.store.lookup sid = some p → Entry s sid p

theorem not_zeroed {p : State × Hand} (h : p.1.maxMana = 3) : ¬ Zeroed p := by
  intro hz
  rw [hz.2.2.1] at h
  cases h

section Entry
variable {s : Fleet} {i : ℕ} {w w' : Worker} {sid : UInt64} {p : State × Hand}

/-- A worker that is replaced by one that does on `sid` what it did keeps the
reason for an entry. -/
theorem Entry.set (h : Entry s sid p) (hg : s.workers[i]? = some w) {store : Store}
    {holders : List (ℕ × UInt64)}
    (hkeep : w.mySid = sid → w'.mySid = sid ∧ saves w.io ⊆ saves w'.io ∧
      (w.pc.opening = true → w'.pc.opening = true))
    (hback : w'.mySid = sid → w'.pc.opening = false → w.mySid = sid ∧ w.pc.opening = false) :
    Entry ⟨store, s.workers.set i w', holders⟩ sid p := by
  rcases h with hp | ⟨ho, hn⟩
  · refine Or.inl (Scan.exists_set hg hp fun ⟨hsid, hm⟩ => ?_)
    obtain ⟨hsid', hsub, _⟩ := hkeep hsid
    exact ⟨hsid', hsub hm⟩
  · refine Or.inr ⟨Scan.exists_set hg ho fun ⟨hsid, hpc⟩ => ?_, fun hplays => hn ?_⟩
    · obtain ⟨hsid', _, hpc'⟩ := hkeep hsid
      exact ⟨hsid', hpc' hpc⟩
    · obtain ⟨v, hv, hsid, hpc⟩ := hplays
      rcases List.mem_or_eq_of_mem_set hv with hv | rfl
      · exact ⟨v, hv, hsid, hpc⟩
      · exact ⟨w, List.mem_of_getElem? hg, hback hsid hpc⟩

/-- A worker that is and stays off `sid` has nothing to do with its entry. -/
theorem Entry.set_off (h : Entry s sid p) (hg : s.workers[i]? = some w) {store : Store}
    {holders : List (ℕ × UInt64)} (hw : w.mySid ≠ sid)
    (hw' : w'.mySid = sid → w'.pc.opening = true) :
    Entry ⟨store, s.workers.set i w', holders⟩ sid p := by
  refine h.set hg (fun hsid => absurd hsid hw) fun hsid hpc => ?_
  rw [hw' hsid] at hpc
  cases hpc

/-- A worker that stays on its session, with its saves, keeps every entry. -/
theorem Entry.still (h : Entry s sid p) (hg : s.workers[i]? = some w) {store : Store}
    {holders : List (ℕ × UInt64)} (hsid : w'.mySid = w.mySid) (hsaves : saves w'.io = saves w.io)
    (hopen : w'.pc.opening = w.pc.opening) : Entry ⟨store, s.workers.set i w', holders⟩ sid p := by
  refine h.set hg (fun hs => ⟨hsid.trans hs, ?_, ?_⟩) fun hs ho => ?_
  · rw [hsaves]
    exact List.Subset.refl _
  · rw [hopen]
    exact id
  · exact ⟨hsid.symm.trans hs, hopen.symm.trans ho⟩

/-- A new worker is on no session. -/
theorem Entry.fork (h : Entry s sid p) (hz : sid ≠ 0) (rng : ℕ → ℕ) :
    Entry (s.step (.fork rng)) sid p := by
  rcases h with ⟨w, hw, hp⟩ | ⟨⟨w, hw, ho⟩, hn⟩
  · exact Or.inl ⟨w, List.mem_append_left _ hw, hp⟩
  · refine Or.inr ⟨⟨w, List.mem_append_left _ hw, ho⟩, ?_⟩
    rintro ⟨v, hv, hs, hp⟩
    rcases List.mem_append.mp hv with hv | hv
    · exact hn ⟨v, hv, hs, hp⟩
    · rw [List.mem_singleton.mp hv] at hs
      exact hz hs.symm

end Entry

section Sound
variable {s : Fleet} {i : ℕ} {w w' : Worker} {store' : Store} {env : AllocEnv}
  {holders : List (ℕ × UInt64)}

theorem Sound.load_passed (h : Sound s) {sid : UInt64} {p : State × Hand}
    (hl : s.store.lookup sid = some p) (hpub : Opens s sid → Plays s sid) :
    Passed s sid p ∧ p.1.maxMana = 3 := by
  rcases h.entry sid p hl with hp | ⟨ho, hn⟩
  · obtain ⟨w, hw, _, hm⟩ := id hp
    exact ⟨hp, (h.funded w hw).saved p hm⟩
  · exact absurd (hpub ho) hn

theorem Inside.funded (h : Inside w w') (hm : w.game.st.maxMana = 3)
    (hs : ∀ p ∈ saves w.io, p.1.maxMana = 3) : w'.Funded := by
  refine ⟨fun _ => h.mana.trans hm, ?_⟩
  rw [h.kept]
  exact hs

theorem Sound.effect_funded (h : Sound s) (hg : s.workers[i]? = some w)
    (hpub : ∀ sid, w.pc = .load sid → Opens s sid → Plays s sid)
    (he : Effect s.store env w w' store') : w'.Funded := by
  have hw := h.funded w (List.mem_of_getElem? hg)
  cases he with
  | rest => exact hw
  | refused hgr hsid hsaves hopen hend =>
    refine ⟨fun hs => ?_, hsaves ▸ hw.saved⟩
    rcases hend with hend | hend
    · rw [hend] at hs
      cases hs
    · rw [hend] at hs
      cases hs
  | opened hpc hid hne hsaves hpc' hgame =>
    refine ⟨fun _ => ?_, hsaves ▸ hw.saved⟩
    rw [hgame]
    exact hw.game (by rw [hpc]; rfl)
  | resumed hpc hl hin => exact hin.funded (h.load_passed hl (hpub _ hpc)).2 hw.saved
  | saved hpc hin hsid hgame hsaves =>
    have hm := hw.game (by rw [hpc]; rfl)
    refine hin.funded (hgame ▸ hm) ?_
    rw [hsaves]
    exact List.forall_mem_cons.mpr ⟨hm, hw.saved⟩
  | touched hpc hin => exact hin.funded (hw.game (by rw [hpc]; rfl)) hw.saved

/-- A login's entry is an old one, or its own. -/
theorem Sound.opened_entry (h : Sound s) (hg : s.workers[i]? = some w)
    (hid : w'.mySid = (ipcAllocSession s.store env).2) (hopen : w'.pc.opening = true)
    {sid : UInt64} (hoff : w.mySid ≠ sid) (hsid : sid ≠ 0) {p : State × Hand}
    (hl : (ipcAllocSession s.store env).1.lookup sid = some p) :
    Entry ⟨(ipcAllocSession s.store env).1, s.workers.set i w', holders⟩ sid p := by
  cases hold : s.store.lookup sid with
  | some q =>
    rw [h.packed.lookup_alloc env hold] at hl
    exact (h.entry sid p (hold.trans hl)).set_off hg hoff fun _ => hopen
  | none =>
    have hown : w'.mySid = sid := by
      by_contra hx
      rw [lookup_alloc_other s.store sid (hid ▸ hx), hold] at hl
      cases hl
    obtain ⟨hi, _⟩ := List.getElem?_eq_some_iff.mp hg
    refine Or.inr ⟨⟨w', List.mem_of_getElem? (List.getElem?_set_self hi), hown, hopen⟩, ?_⟩
    rintro ⟨v, hv, hvs, hvo⟩
    rcases List.mem_or_eq_of_mem_set hv with hv | rfl
    · have hk := (h.filed v hv).known (Or.inl (hvs.symm ▸ hsid))
      rw [hvs, hold] at hk
      cases hk
    · rw [hopen] at hvo
      cases hvo

theorem Sound.effect_entry (h : Sound s) (hg : s.workers[i]? = some w)
    (hpub : ∀ sid, w.pc = .load sid → Opens s sid → Plays s sid)
    (he : Effect s.store env w w' store') {sid : UInt64} {p : State × Hand}
    (hl : store'.lookup sid = some p) : Entry ⟨store', s.workers.set i w', holders⟩ sid p := by
  have hfiled := h.filed w (List.mem_of_getElem? hg)
  have hsid : sid ≠ 0 := by
    rintro rfl
    rw [(he.packed h.packed).lookup_zero] at hl
    cases hl
  -- a worker in the handshake is on no session
  have hoff : w.pc.greeting = true → w.mySid ≠ sid := by
    intro hgr hs
    exact hsid (hs.symm.trans (hfiled.fresh hgr).1)
  cases he with
  | rest => exact (h.entry sid p hl).still hg rfl rfl rfl
  | refused hgr hs hsaves hopen hend =>
    refine (h.entry sid p hl).set_off hg (hoff hgr) fun hs' => ?_
    exact absurd (hs.symm.trans hs') (hoff hgr)
  | opened hpc hid hne hsaves hpc' hgame =>
    have hgr : w.pc.greeting = true := by rw [hpc]; rfl
    have hopen : w'.pc.opening = true := by rw [hpc']; rfl
    exact h.opened_entry hg hid hopen (hoff hgr) hsid hl
  | resumed hpc hfound hin =>
    rename_i t q
    have hgr : w.pc.greeting = true := by rw [hpc]; rfl
    rw [lookup_seen] at hl
    by_cases ht : sid = t
    · subst ht
      have hp := (h.load_passed hl (hpub _ hpc)).1
      exact Or.inl (Scan.exists_set hg hp fun hw => absurd hw.1 (hoff hgr))
    · refine (h.entry sid p hl).set_off hg (hoff hgr) fun hs => ?_
      exact absurd (hs.symm.trans hin.sid) ht
  | saved hpc hin hs hgame hsaves =>
    by_cases ht : sid = w.mySid
    · subst ht
      obtain ⟨hi, _⟩ := List.getElem?_eq_some_iff.mp hg
      rw [lookup_save_same] at hl
      obtain ⟨_, _, rfl⟩ := Option.map_eq_some_iff.mp hl
      refine Or.inl ⟨w', List.mem_of_getElem? (List.getElem?_set_self hi), hin.sid.trans hs, ?_⟩
      rw [hin.kept, hsaves]
      exact List.mem_cons_self
    · rw [lookup_save_other _ _ _ _ _ _ ht] at hl
      refine (h.entry sid p hl).set_off hg (Ne.symm ht) fun hs' => ?_
      exact absurd (hs'.symm.trans (hin.sid.trans hs)) ht
  | touched hpc hin =>
    rw [lookup_touch] at hl
    refine (h.entry sid p hl).still hg hin.sid hin.kept ?_
    rw [hin.opening, hpc]
    rfl

end Sound

theorem sound_start : Sound Fleet.start :=
  ⟨books_start, fun _ hw => absurd hw List.not_mem_nil, fun sid p hl => by
    have hz : Store.zero.lookup sid = none := by
      rw [Store.lookup, Option.map_eq_none_iff, List.find?_eq_none]
      intro e he
      rw [List.eq_of_mem_replicate he]
      exact Bool.false_ne_true
    rw [show Fleet.start.store.lookup sid = none from hz] at hl
    cases hl⟩

theorem init_funded (rng : ℕ → ℕ) : (Worker.init rng).Funded :=
  ⟨nofun, fun _ hp => absurd hp List.not_mem_nil⟩

theorem Worker.Funded.onRecv {w : Worker} (h : w.Funded) (r : Option Packet) :
    (w.onRecv r).Funded := by
  refine ⟨?_, by rw [(onRecv_still w r).2.1]; exact h.saved⟩
  unfold Worker.onRecv
  split
  · rename_i p hpc
    have hno : w.pc.seated = true → (w.send .pong).game.st.maxMana = 3 := by
      rw [hpc]
      exact nofun
    unfold Worker.greet
    split
    · exact hno
    · split
      · exact fun _ => rfl
      · split
        · split <;> exact nofun
        · exact hno
  · exact nofun
  · rename_i p hpc
    exact fun _ => h.game (by rw [hpc]; rfl)
  · exact nofun
  · exact h.game

theorem sound_step {s : Fleet} (act : Act) (hc : NotInGap s act) (h : Sound s) :
    Sound (s.step act) := by
  refine ⟨books_step act h.toBooks, ?_, ?_⟩
  · cases act with
    | fork rng =>
      intro w hw
      rcases List.mem_append.mp hw with hw | hw
      · exact h.funded w hw
      · rw [List.mem_singleton.mp hw]
        exact init_funded rng
    | recv i r => exact Scan.modify_forall h.funded (fun w hw => hw.onRecv r) i
    | ipc i env =>
      cases hg : s.workers[i]? with
      | none =>
        simp only [Fleet.step, hg]
        exact h.funded
      | some w =>
        simp only [Fleet.step, hg]
        exact Scan.set_forall h.funded
          (h.effect_funded hg (fun _ => hc.at_load hg) (onIpc_effect w s.store env))
  · intro sid p hl
    cases act with
    | fork rng =>
      refine (h.entry sid p hl).fork ?_ rng
      rintro rfl
      rw [show (s.step (.fork rng)).store.lookup 0 = none from h.packed.lookup_zero] at hl
      cases hl
    | recv i r =>
      cases hg : s.workers[i]? with
      | none =>
        have hsame : s.workers.modify i (·.onRecv r) = s.workers := by
          rw [List.modify_eq_set_getElem?, hg]
          rfl
        simp only [Fleet.step, hsame]
        exact h.entry sid p hl
      | some w =>
        obtain ⟨hsid, hsaves, hopen, _⟩ := onRecv_still w r
        simp only [Fleet.step, Scan.modify_eq_set hg]
        exact (h.entry sid p hl).still hg hsid hsaves hopen
    | ipc i env =>
      cases hg : s.workers[i]? with
      | none =>
        simp only [Fleet.step, hg] at hl ⊢
        exact h.entry sid p hl
      | some w =>
        simp only [Fleet.step, hg] at hl ⊢
        exact h.effect_entry hg (fun _ => hc.at_load hg) (onIpc_effect w s.store env) hl

theorem Sound.started {s : Fleet} (h : Sound s) (act : Act) (hc : NotInGap s act) :
    Started s act := by
  cases act with
  | fork rng => trivial
  | recv i r => trivial
  | ipc i env =>
    intro w hw sid hsid hrc
    cases hl : s.store.lookup sid with
    | none =>
      have hmiss : s.loaded w sid env = (-1, w.game.st, w.game.hand) := by
        rw [Fleet.loaded, load_missing _ _ _ _ _ hl]
      rw [hmiss] at hrc
      exact absurd (show (-1 : ℤ) = 0 from hrc) (by decide)
    | some p =>
      have hfound : s.loaded w sid env = (0, p) := load_found _ _ _ _ _ hl
      obtain ⟨hpass, hmana⟩ := h.load_passed hl (hc w hw sid hsid)
      rw [hfound]
      exact ⟨hpass, not_zeroed hmana⟩

/-- Every pair a run resumes from was saved for that id before, and is not a
zeroed slot, exactly when no load of the run falls into the gap of a login. -/
theorem resume_started_iff (acts : List Act) :
    Run.Along Fleet.step Started Fleet.start acts ↔
      Run.Along Fleet.step NotInGap Fleet.start acts := by
  constructor
  · exact Run.along_of_invariant (fun _ act _ => books_step act)
      (fun _ act hs hb => hb.not_in_gap act hs) books_start
  · exact Run.along_of_invariant (fun _ act => sound_step act)
      (fun _ act hc hs => hs.started act hc) sound_start

/-- A worker is given id 1, and another one resumes it before the first has saved. -/
def gapActs : List Act :=
  [.fork (fun _ => 0), .fork (fun _ => 0), .recv 0 (some loginPacket), .ipc 0 env0,
   .recv 1 (some resumePacket), .ipc 1 env0]

/-- The second worker is in the main loop with the zeroed state. -/
theorem resume_not_started :
    ¬ Run.Along Fleet.step Started Fleet.start gapActs ∧
      (runFleet gapActs).workers[1]?.map
          (fun w => (w.pc.greeting, w.mySid, w.game.st.toCore, w.game.hand)) =
        some (false, 1, State.zero.toCore, Hand.zero) := by
  decide +kernel

end MiniTcg.Server
