import MiniTcg.Ipc.Refinement
import MiniTcg.Server.Fleet
import MiniTcg.Server.Resume

/-!
# Several workers on one session

A worker loads the pair of its session once and from then on saves its own copy
whole. A save is lossless when it stores the action applied to the pair the
store holds at that moment. It is, as long as no worker saves a copy that
another worker's save has made stale.
-/
namespace MiniTcg.Server

open MiniTcg.Game MiniTcg.Ipc MiniTcg.Wire

/-- The action whose result a worker is about to save, and where it started. -/
def Pc.pending : Pc → Option (Action × Match)
  | .save a base => some (a, base)
  | _ => none

/-- If the act is a save, it stores the action applied to the stored pair. -/
def Lossless (s : Fleet) : Act → Prop
  | .ipc i env => ∀ w ∈ s.workers[i]?.toList, ∀ ab ∈ w.pc.pending.toList,
      ∃ p ∈ (s.store.lookup w.mySid).toList,
        Holds (s.step (.ipc i env)).store w.mySid
          (ab.1.apply { ab.2 with st := p.1, hand := p.2 })
  | _ => True

instance (s : Fleet) : (act : Act) → Decidable (Lossless s act)
  | .ipc i env => inferInstanceAs (Decidable (∀ w ∈ s.workers[i]?.toList,
      ∀ ab ∈ w.pc.pending.toList, ∃ p ∈ (s.store.lookup w.mySid).toList,
        Holds (s.step (.ipc i env)).store w.mySid
          (ab.1.apply { ab.2 with st := p.1, hand := p.2 })))
  | .fork _ => isTrue trivial
  | .recv _ _ => isTrue trivial

/-- The store holds a finished game for `sid`. -/
def Over (store : Store) (sid : UInt64) : Prop :=
  (store.lookup sid).map (·.1.gameOver) = some 1

instance (store : Store) (sid : UInt64) : Decidable (Over store sid) :=
  inferInstanceAs (Decidable (_ = _))

/-- At a save the worker still holds the stored pair; a new id is new. -/
def Pc.Current (s : Fleet) (i : ℕ) (sid : UInt64) (env : AllocEnv) : Pc → Prop
  | .alloc _ => s.store.lookup (ipcAllocSession s.store env).2 = none
  | .save _ _ => (i, sid) ∈ s.holders
  | _ => True

instance (s : Fleet) (i : ℕ) (sid : UInt64) (env : AllocEnv) :
    (pc : Pc) → Decidable (pc.Current s i sid env)
  | .alloc _ => inferInstanceAs (Decidable (_ = _))
  | .save _ _ => inferInstanceAs (Decidable ((i, sid) ∈ s.holders))
  | .handshake => isTrue trivial
  | .load _ => isTrue trivial
  | .recv => isTrue trivial
  | .touch _ => isTrue trivial
  | .closed => isTrue trivial

def Current (s : Fleet) : Act → Prop
  | .ipc i env => ∀ w ∈ s.workers[i]?.toList, w.pc.Current s i w.mySid env
  | _ => True

instance (s : Fleet) : (act : Act) → Decidable (Current s act)
  | .ipc i env =>
    inferInstanceAs (Decidable (∀ w ∈ s.workers[i]?.toList, w.pc.Current s i w.mySid env))
  | .fork _ => isTrue trivial
  | .recv _ _ => isTrue trivial

/-! ### A worker on its session -/

/-- The match a worker continues from: where its pending save started, else its
own. -/
def Worker.copy (w : Worker) : Match :=
  match w.pc with
  | .save _ base => base
  | _ => w.game

/-- Past the handshake, on session `sid` with the copy `g`. -/
structure Worker.On (w : Worker) (sid : UInt64) (g : Match) : Prop where
  sid_eq : w.mySid = sid
  copy_eq : w.copy = g
  joined : w.pc ≠ .handshake ∧ (∀ base, w.pc ≠ .alloc base) ∧ ∀ t, w.pc ≠ .load t

section On
variable {w : Worker} {sid : UInt64} {g : Match}

theorem joined_of_not_greeting (h : w.pc.greeting = false) :
    w.pc ≠ .handshake ∧ (∀ base, w.pc ≠ .alloc base) ∧ ∀ t, w.pc ≠ .load t := by
  refine ⟨fun hpc => ?_, fun base hpc => ?_, fun t hpc => ?_⟩
  · rw [hpc] at h
    cases h
  · rw [hpc] at h
    cases h
  · rw [hpc] at h
    cases h

theorem act_on (w : Worker) (a : Action) : (w.act a).On w.mySid w.game :=
  ⟨rfl, rfl, joined_of_not_greeting rfl⟩

theorem loopTop_on (w : Worker) : w.loopTop.On w.mySid w.game := by
  unfold Worker.loopTop
  split
  · exact act_on w _
  · exact ⟨rfl, rfl, joined_of_not_greeting rfl⟩

theorem Answers.on {w' : Worker} (h : Answers w w') : w'.loopTop.On w.mySid w.game := by
  cases h with
  | silent => exact loopTop_on _
  | plain => exact loopTop_on _
  | table => exact loopTop_on _

theorem dispatch_on (w : Worker) (p : Packet) : (w.dispatch p).On w.mySid w.game := by
  rcases dispatch_cases w p with
    ⟨w', hw, ha, _⟩ | ⟨_, _, _, idx, hw, _, _⟩ | ⟨_, _, hw, _, _⟩
  · rw [hw]
    exact ha.on
  · rcases hw with hw | ⟨rc, hw⟩
    · rw [hw]
      exact act_on w _
    · rw [hw]
      exact ⟨rfl, rfl, joined_of_not_greeting rfl⟩
  · rw [hw]
    exact act_on w _

theorem afterSave_on (w : Worker) (a : Action) : (w.afterSave a).On w.mySid w.game := by
  cases a with
  | login => exact loopTop_on _
  | play idx => exact loopTop_on _
  | endTurn =>
    rw [Worker.afterSave]
    split
    · exact act_on w _
    · exact loopTop_on _
  | aiTurn top =>
    cases top with
    | false => exact loopTop_on _
    | true => exact ⟨rfl, rfl, joined_of_not_greeting rfl⟩

theorem attach_on (w : Worker) (sid : UInt64) (st : State) (hand : Hand) :
    ∃ g, (w.attach sid st hand).On sid g ∧ g.st.toCore = st.toCore ∧ g.hand = hand :=
  ⟨_, loopTop_on _, rfl, rfl⟩

theorem Worker.On.onRecv (h : w.On sid g) (r : Option Packet) : (w.onRecv r).On sid g := by
  obtain ⟨hsid, hcopy, hjoined⟩ := h
  unfold Worker.onRecv
  split
  · exact absurd ‹_› hjoined.1
  · exact absurd ‹_› hjoined.1
  · rename_i hpc
    rw [Worker.copy, hpc] at hcopy
    exact ⟨hsid, hcopy, joined_of_not_greeting rfl⟩
  · rename_i hpc
    rw [Worker.copy, hpc] at hcopy
    exact ⟨hsid, hcopy, joined_of_not_greeting rfl⟩
  · exact ⟨hsid, hcopy, hjoined⟩

end On

/-! ### The invariant -/

theorem apply_same {g g' : Match} (h : g.Same g') (a : Action) : (a.apply g).Same (a.apply g') := by
  cases a with
  | login =>
    unfold Action.apply loginGame
    apply enterTurn_same
    refine Match.same_of ?_ h.hand h.trace h.rng
    simp only [State.update_toCore, h.core]
  | play idx =>
    show (playerPlay g idx).Same (playerPlay g' idx)
    exact playerPlay_same h idx
  | endTurn =>
    show (phaseEnd g).Same (phaseEnd g')
    exact phaseEnd_same h
  | aiTurn top =>
    show (processAiTurn g).Same (processAiTurn g')
    exact processAiTurn_same h

theorem Holds.found {store : Store} {sid : UInt64} {g : Match} (h : Holds store sid g) :
    ∃ p, store.lookup sid = some p ∧ p.1.toCore = g.st.toCore ∧ p.2 = g.hand := by
  obtain ⟨p, hp, he⟩ := Option.map_eq_some_iff.mp h
  exact ⟨p, hp, congrArg Prod.fst he, congrArg Prod.snd he⟩

theorem Holds.of_lookup {store store' : Store} {sid : UInt64} {g : Match} (h : Holds store sid g)
    (he : store'.lookup sid = store.lookup sid) : Holds store' sid g := by
  unfold Holds
  rw [he]
  exact h

theorem holds_of_found {store : Store} {sid : UInt64} {g : Match} {p : State × Hand}
    (h : store.lookup sid = some p) (hc : p.1.toCore = g.st.toCore) (hh : p.2 = g.hand) :
    Holds store sid g := by
  unfold Holds
  rw [h, Option.map_some, hc, hh]

/-- The holders of a session have joined it, and their copy is the stored pair. -/
structure Coherent (s : Fleet) : Prop where
  layout : ∃ es, Layout s.store es
  ok : ∀ w ∈ s.workers, w.Ok
  held : ∀ i sid, (i, sid) ∈ s.holders →
    ∃ w g, s.workers[i]? = some w ∧ w.On sid g ∧ Holds s.store sid g

theorem coherent_start : Coherent Fleet.start :=
  ⟨⟨[], layout_zero⟩, fun _ hw => absurd hw List.not_mem_nil, fun _ _ h => absurd h List.not_mem_nil⟩

section Coherent
variable {s : Fleet} {i : ℕ} {w : Worker}

theorem Coherent.own (h : Coherent s) (hg : s.workers[i]? = some w) {sid : UInt64}
    (hm : (i, sid) ∈ s.holders) : ∃ g, w.On sid g ∧ Holds s.store sid g := by
  obtain ⟨v, g, hv, hon, hold⟩ := h.held i sid hm
  obtain rfl : w = v := Option.some.inj (hg.symm.trans hv)
  exact ⟨g, hon, hold⟩

theorem Coherent.worker_ok (h : Coherent s) (hg : s.workers[i]? = some w) : w.Ok :=
  h.ok w (List.mem_of_getElem? hg)

/-- What an `ipc` step of worker `i` has to show: every holder afterwards is the
worker itself, or held before and the pair is still there. -/
theorem Coherent.set (h : Coherent s) (hg : s.workers[i]? = some w) {store : Store} {w' : Worker}
    {holders : List (ℕ × UInt64)} (hl : ∃ es, Layout store es) (hw : w'.Ok)
    (hh : ∀ j t, (j, t) ∈ holders →
      (j = i ∧ ∃ g, w'.On t g ∧ Holds store t g) ∨
      (j ≠ i ∧ (j, t) ∈ s.holders ∧ ∀ g, Holds s.store t g → Holds store t g)) :
    Coherent ⟨store, s.workers.set i w', holders⟩ := by
  obtain ⟨hi, _⟩ := List.getElem?_eq_some_iff.mp hg
  refine ⟨hl, Scan.set_forall h.ok hw, fun j t hm => ?_⟩
  rcases hh j t hm with ⟨rfl, g, hon, hs⟩ | ⟨hne, hm', hs⟩
  · exact ⟨w', g, List.getElem?_set_self hi, hon, hs⟩
  · obtain ⟨v, g, hv, hon, hold⟩ := h.held j t hm'
    exact ⟨v, g, by rwa [List.getElem?_set_ne (Ne.symm hne)], hon, hs g hold⟩

/-- A worker in the handshake holds nothing. -/
theorem Coherent.not_held (h : Coherent s) (hg : s.workers[i]? = some w)
    (hpc : w.pc = .handshake ∨ (∃ base, w.pc = .alloc base) ∨ ∃ t, w.pc = .load t) (sid : UInt64) :
    (i, sid) ∉ s.holders := by
  intro hm
  obtain ⟨g, hon, _⟩ := h.own hg hm
  obtain ⟨h1, h2, h3⟩ := hon.joined
  rcases hpc with hpc | ⟨base, hpc⟩ | ⟨t, hpc⟩
  · exact h1 hpc
  · exact h2 base hpc
  · exact h3 t hpc

theorem Coherent.frame (h : Coherent s) (hg : s.workers[i]? = some w) {store : Store} {w' : Worker}
    (hl : ∃ es, Layout store es) (hw : w'.Ok) (hs : ∀ t, store.lookup t = s.store.lookup t)
    (hon : ∀ t g, (i, t) ∈ s.holders → w.On t g → w'.On t g) :
    Coherent ⟨store, s.workers.set i w', s.holders⟩ := by
  refine h.set hg hl hw fun j t hm => ?_
  by_cases hj : j = i
  · subst hj
    obtain ⟨g, hwon, hold⟩ := h.own hg hm
    exact Or.inl ⟨rfl, g, hon t g hm hwon, hold.of_lookup (hs t)⟩
  · exact Or.inr ⟨hj, hm, fun g hold => hold.of_lookup (hs t)⟩

theorem Coherent.ipc_alloc (h : Coherent s) (hg : s.workers[i]? = some w) {base : Match}
    (hpc : w.pc = .alloc base) {env : AllocEnv}
    (hnew : s.store.lookup (ipcAllocSession s.store env).2 = none) :
    Coherent (s.step (.ipc i env)) := by
  obtain ⟨es, hl⟩ := h.layout
  have hok := onIpc_ok (h.worker_ok hg) s.store env
  have hbase := (h.worker_ok hg).alloc hpc
  have hout := h.not_held hg (Or.inr (Or.inl ⟨base, hpc⟩))
  simp only [Fleet.step, hg, Fleet.held, Worker.onIpc, hpc] at hok ⊢
  by_cases hlen : es.length < maxSessions
  · have hid := (hl.alloc_room env hlen).1
    have hfresh : allocId env es.length ∉ es.map (·.sessionId) := by
      rw [← hid]
      exact (hl.lookup_eq_none _).mp hnew
    have hl' := hl.alloc_fresh env hlen hfresh
    have hz : (ipcAllocSession s.store env).2 ≠ 0 := by
      rw [hid]
      exact allocId_ne_zero env _
    simp only [if_neg hz] at hok ⊢
    refine h.set hg ⟨_, hl'⟩ hok fun j t hm => ?_
    rcases List.mem_cons.mp hm with hm | hm
    · obtain ⟨rfl, rfl⟩ := Prod.mk.inj hm
      refine Or.inl ⟨rfl, base, ⟨rfl, rfl, joined_of_not_greeting rfl⟩, ?_⟩
      have hfind := hl'.find_iff.mpr
        ⟨List.mem_append_right es (List.mem_singleton.mpr rfl), hid.symm⟩
      refine holds_of_found (p := zeroPair) ?_ ?_ ?_
      · rw [Store.lookup, hfind]
        rfl
      · rw [hbase.1]
        rfl
      · rw [hbase.2.1]
        rfl
    · refine Or.inr ⟨fun hj => hout t (hj ▸ hm), hm, fun g hold => ?_⟩
      obtain ⟨p, hp, _⟩ := hold.found
      refine hold.of_lookup (lookup_alloc_other s.store t fun he => ?_)
      rw [he, hp] at hnew
      cases hnew
  · rw [hl.alloc_full env (by omega)] at hok ⊢
    exact h.frame hg ⟨es, hl⟩ hok (fun t => rfl) fun t g hm _ => absurd hm (hout t)

theorem Coherent.ipc_load (h : Coherent s) (hg : s.workers[i]? = some w) {sid : UInt64}
    (hpc : w.pc = .load sid) (env : AllocEnv) : Coherent (s.step (.ipc i env)) := by
  obtain ⟨es, hl⟩ := h.layout
  have hok := onIpc_ok (h.worker_ok hg) s.store env
  have hout := h.not_held hg (Or.inr (Or.inr ⟨sid, hpc⟩))
  simp only [Fleet.step, hg, Fleet.held, Worker.onIpc, hpc] at hok ⊢
  cases hf : s.store.lookup sid with
  | none =>
    rw [load_missing _ _ _ _ _ hf] at hok ⊢
    exact h.frame hg ⟨es, hl⟩ hok (fun t => rfl) fun t g hm _ => absurd hm (hout t)
  | some p =>
    obtain ⟨st, hand⟩ := p
    have hsame := fun t => lookup_load s.store sid t w.game.st w.game.hand env.seen
    have hr := load_found s.store sid w.game.st w.game.hand env.seen hf
    have hlay : ∃ es', Layout (ipcLoadSession s.store sid w.game.st w.game.hand env.seen).1 es' := by
      rw [load_store]
      obtain ⟨es', hl', _⟩ := hl.onSlot sid (keeps_seen env.seen)
      exact ⟨es', hl'⟩
    simp only [hr, if_true, Option.isSome_some] at hok ⊢
    refine h.set hg hlay hok fun j t hm => ?_
    rcases List.mem_cons.mp hm with hm | hm
    · obtain ⟨rfl, rfl⟩ := Prod.mk.inj hm
      obtain ⟨g, hon, hc, hh⟩ := attach_on w t st hand
      exact Or.inl ⟨rfl, g, hon, holds_of_found ((hsame t).trans hf) hc.symm hh.symm⟩
    · exact Or.inr ⟨fun hj => hout t (hj ▸ hm), hm, fun g hold => hold.of_lookup (hsame t)⟩

theorem Coherent.ipc_touch (h : Coherent s) (hg : s.workers[i]? = some w) {p : Packet}
    (hpc : w.pc = .touch p) (env : AllocEnv) : Coherent (s.step (.ipc i env)) := by
  obtain ⟨es, hl⟩ := h.layout
  have hok := onIpc_ok (h.worker_ok hg) s.store env
  simp only [Fleet.step, hg, Fleet.held, Worker.onIpc, hpc] at hok ⊢
  obtain ⟨es', hl', _⟩ := hl.onSlot w.mySid (keeps_seen env.seen)
  refine h.frame hg ⟨es', hl'⟩ hok (fun t => lookup_touch _ _ _ _) fun t g _ hon => ?_
  have hcopy := hon.copy_eq
  rw [Worker.copy, hpc] at hcopy
  rw [← hon.sid_eq, ← hcopy]
  exact dispatch_on _ p

/-- A save of a copy that is current leaves a current copy. -/
theorem Coherent.ipc_save (h : Coherent s) (hg : s.workers[i]? = some w) {a : Action}
    {base : Match} (hpc : w.pc = .save a base) (hcur : (i, w.mySid) ∈ s.holders)
    (env : AllocEnv) : Coherent (s.step (.ipc i env)) := by
  obtain ⟨es, hl⟩ := h.layout
  have hok := onIpc_ok (h.worker_ok hg) s.store env
  obtain ⟨g₀, _, hold₀⟩ := h.own hg hcur
  obtain ⟨p, hp, _⟩ := hold₀.found
  simp only [Fleet.step, hg, Fleet.held, Worker.onIpc, hpc] at hok ⊢
  obtain ⟨es', hl', _⟩ := hl.onSlot w.mySid (keeps_save w.game.st w.game.hand env.seen)
  have hself : Holds (ipcSaveSession s.store w.mySid w.game.st w.game.hand env.seen).1
      w.mySid w.game := by
    refine holds_of_found (p := (w.game.st, w.game.hand)) ?_ rfl rfl
    rw [lookup_save_same, hp]
    rfl
  have hother : ∀ t, t ≠ w.mySid →
      (ipcSaveSession s.store w.mySid w.game.st w.game.hand env.seen).1.lookup t =
        s.store.lookup t := fun t ht => lookup_save_other _ _ _ _ _ _ ht
  refine h.set hg ⟨es', hl'⟩ hok fun j t hm => ?_
  by_cases hsame : Holds s.store w.mySid w.game
  · rw [if_pos hsame] at hm
    by_cases hj : j = i
    · subst hj
      obtain ⟨g, hon, _⟩ := h.own hg hm
      rw [← hon.sid_eq]
      exact Or.inl ⟨rfl, w.game, afterSave_on _ a, hself⟩
    · refine Or.inr ⟨hj, hm, fun g hold => ?_⟩
      by_cases ht : t = w.mySid
      · subst ht
        exact hself.trans (hsame.symm.trans hold)
      · exact hold.of_lookup (hother t ht)
  · rw [if_neg hsame] at hm
    rcases List.mem_cons.mp hm with hm | hm
    · obtain ⟨rfl, rfl⟩ := Prod.mk.inj hm
      exact Or.inl ⟨rfl, w.game, afterSave_on _ a, hself⟩
    · obtain ⟨hmem, hkey⟩ := List.mem_filter.mp hm
      have ht : t ≠ w.mySid := by simpa using hkey
      refine Or.inr ⟨fun hj => ?_, hmem, fun g hold => hold.of_lookup (hother t ht)⟩
      obtain ⟨g, hon, _⟩ := h.own hg (hj ▸ hmem)
      exact ht hon.sid_eq.symm

theorem coherent_step (act : Act) (hc : Current s act) (h : Coherent s) : Coherent (s.step act) := by
  cases act with
  | fork rng =>
    refine ⟨h.layout, fun v hv => ?_, fun j t hm => ?_⟩
    · rcases List.mem_append.mp hv with hv | hv
      · exact h.ok v hv
      · rw [List.mem_singleton.mp hv]
        exact init_ok rng
    · obtain ⟨v, g, hv, hon, hold⟩ := h.held j t hm
      obtain ⟨hj, _⟩ := List.getElem?_eq_some_iff.mp hv
      exact ⟨v, g, by rwa [Fleet.step, List.getElem?_append_left hj], hon, hold⟩
  | recv i r =>
    refine ⟨h.layout, Scan.modify_forall h.ok (fun v hv => onRecv_ok hv r) i, fun j t hm => ?_⟩
    obtain ⟨v, g, hv, hon, hold⟩ := h.held j t hm
    refine ⟨if i = j then v.onRecv r else v, g, ?_, ?_, hold⟩
    · rw [Fleet.step, List.getElem?_modify, hv]
      rfl
    · split
      · exact hon.onRecv r
      · exact hon
  | ipc i env =>
    cases hg : s.workers[i]? with
    | none =>
      simp only [Fleet.step, hg]
      exact h
    | some w =>
      have hcw : w.pc.Current s i w.mySid env := hc w (by rw [hg]; exact List.mem_singleton.mpr rfl)
      cases hpc : w.pc with
      | alloc base =>
        rw [hpc] at hcw
        exact h.ipc_alloc hg hpc hcw
      | load sid => exact h.ipc_load hg hpc env
      | save a base =>
        rw [hpc] at hcw
        exact h.ipc_save hg hpc hcw env
      | touch p => exact h.ipc_touch hg hpc env
      | handshake | recv | closed =>
        simp only [Fleet.step, hg, Fleet.held, Worker.onIpc, hpc]
        exact h.frame hg h.layout (h.worker_ok hg) (fun _ => rfl)
          fun _ _ _ hon => hon

/-- The pair a current save finds, and the action it stores. -/
theorem Coherent.save_found (h : Coherent s) (hg : s.workers[i]? = some w) {a : Action}
    {base : Match} (hpc : w.pc = .save a base) (hcur : (i, w.mySid) ∈ s.holders) :
    ∃ p, s.store.lookup w.mySid = some p ∧ p.1.toCore = base.st.toCore ∧ p.2 = base.hand ∧
      w.game = a.apply base ∧ base.st.gameOver = 0 := by
  obtain ⟨g, hon, hold⟩ := h.own hg hcur
  obtain ⟨p, hp, hcore, hhand⟩ := hold.found
  obtain ⟨hgame, hlive⟩ := (h.worker_ok hg).save hpc
  have hcopy := hon.copy_eq
  rw [Worker.copy, hpc] at hcopy
  subst hcopy
  exact ⟨p, hp, hcore, hhand, hgame, hlive⟩

theorem Coherent.lossless (h : Coherent s) {act : Act} (hc : Current s act) : Lossless s act := by
  cases act with
  | fork rng => trivial
  | recv i r => trivial
  | ipc i env =>
    intro w hw ab hab
    have hg : s.workers[i]? = some w := Option.mem_toList.mp hw
    have hcw := hc w hw
    cases hpc : w.pc with
    | save a base =>
      rw [hpc] at hab hcw
      obtain rfl : ab = (a, base) := List.mem_singleton.mp hab
      obtain ⟨p, hp, hcore, hhand, hgame, _⟩ := h.save_found hg hpc hcw
      refine ⟨p, Option.mem_toList.mpr hp, ?_⟩
      have hbase : base.Same { base with st := p.1, hand := p.2 } :=
        Match.same_of hcore.symm hhand.symm rfl rfl
      have hsame := apply_same hbase a
      refine holds_of_found (p := (w.game.st, w.game.hand)) ?_ ?_ ?_
      · simp only [Fleet.step, hg, Worker.onIpc, hpc]
        rw [lookup_save_same, hp]
        rfl
      · rw [hgame]
        exact hsame.core
      · rw [hgame]
        exact hsame.hand
    | handshake | alloc _ | load _ | recv | touch _ | closed =>
      rw [hpc] at hab
      exact absurd hab List.not_mem_nil

/-- No current worker saves over a finished game. -/
theorem Coherent.over_step (h : Coherent s) {act : Act} (hc : Current s act) {sid : UInt64}
    (ho : Over s.store sid) : Over (s.step act).store sid := by
  cases act with
  | fork rng => exact ho
  | recv i r => exact ho
  | ipc i env =>
    cases hg : s.workers[i]? with
    | none =>
      simp only [Fleet.step, hg]
      exact ho
    | some w =>
      have hcw : w.pc.Current s i w.mySid env := hc w (by rw [hg]; exact List.mem_singleton.mpr rfl)
      unfold Over at ho ⊢
      obtain ⟨q, hq, hover⟩ := Option.map_eq_some_iff.mp ho
      simp only [Fleet.step, hg, Worker.onIpc]
      cases hpc : w.pc with
      | alloc base =>
        rw [hpc] at hcw
        have hne : (ipcAllocSession s.store env).2 ≠ sid := by
          intro he
          rw [Pc.Current, he, hq] at hcw
          cases hcw
        have hst := lookup_alloc_other s.store sid hne
        simp only
        split
        · rw [hst]
          exact ho
        · rw [hst]
          exact ho
      | load t =>
        have hst := lookup_load s.store t sid w.game.st w.game.hand env.seen
        simp only
        split
        · rw [hst]
          exact ho
        · rw [hst]
          exact ho
      | save a base =>
        rw [hpc] at hcw
        obtain ⟨p, hp, hcore, _, _, hlive⟩ := h.save_found hg hpc hcw
        have hne : sid ≠ w.mySid := by
          rintro rfl
          obtain rfl : p = q := Option.some.inj (hp.symm.trans hq)
          rw [hcore, hlive] at hover
          exact absurd hover (by decide)
        simp only
        rw [lookup_save_other _ _ _ _ _ _ hne]
        exact ho
      | touch p =>
        simp only
        rw [lookup_touch]
        exact ho
      | handshake | recv | closed => exact ho

end Coherent

/-- As long as every worker that saves still holds the stored pair, each save
stores its action applied to that pair, and a finished game stays finished. -/
theorem no_lost_update (acts : List Act) (h : Run.Along Fleet.step Current Fleet.start acts) :
    Run.Along Fleet.step Lossless Fleet.start acts ∧
      ∀ before after sid, acts = before ++ after → Over (runFleet before).store sid →
        Over (runFleet acts).store sid := by
  refine ⟨Run.along_of_invariant (fun _ act => coherent_step act) (fun _ _ hc hi => hi.lossless hc)
    coherent_start h, ?_⟩
  rintro before after sid rfl ho
  obtain ⟨hb, ha⟩ := Run.along_append.mp h
  have hco : Coherent (runFleet before) :=
    Run.invariant (fun _ act => coherent_step act) coherent_start hb
  have hend := Run.invariant (I := fun s : Fleet => Coherent s ∧ Over s.store sid)
    (fun _ act hc hi => ⟨coherent_step act hc hi.1, hi.1.over_step hc hi.2⟩) ⟨hco, ho⟩ ha
  unfold runFleet
  rw [List.foldl_append]
  exact hend.2

/-- One worker logs in and another resumes its session while it is attached. -/
def sharedActs (rng : ℕ → ℕ) : List Act :=
  [.fork rng, .fork rng, .recv 0 (some loginPacket), .ipc 0 env0, .ipc 0 env0,
   .recv 1 (some resumePacket), .ipc 1 env0]

/-- Worker `i` gets a packet and makes all the calls it leads to. -/
def packetActs (i : ℕ) (p : Packet) : List Act :=
  [.recv i (some p), .ipc i env0, .ipc i env0, .ipc i env0]

/-- The first worker ends its turn until the game is over. -/
def lostActs : List Act :=
  sharedActs (fun _ => 0) ++
    (List.replicate 4 (packetActs 0 ⟨opEndTurn, []⟩)).flatten

/-- Then a refused play of the second worker stores the pair it loaded first. -/
theorem lost_update :
    ¬ Run.Along Fleet.step Lossless Fleet.start (lostActs ++ packetActs 1 ⟨opPlayCard, [7]⟩) ∧
      Over (runFleet lostActs).store 1 ∧
      ¬ Over (runFleet (lostActs ++ packetActs 1 ⟨opPlayCard, [7]⟩)).store 1 := by
  decide +kernel

theorem no_lost_update_shared :
    Over (runFleet (lostActs ++ packetActs 1 ⟨opPing, []⟩)).store 1 :=
  (no_lost_update (lostActs ++ packetActs 1 ⟨opPing, []⟩) (by decide +kernel)).2 lostActs
    (packetActs 1 ⟨opPing, []⟩) 1 rfl (by decide +kernel)

end MiniTcg.Server
