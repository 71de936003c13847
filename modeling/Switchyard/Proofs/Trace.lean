import Mathlib.Logic.Relation
import Switchyard.Proofs.Adjusting
import Switchyard.Proofs.Ledger
import Switchyard.Run

namespace Switchyard

open Std Network

variable [Numbering]

def Session.tell (s : Session) (e : Event) : Session :=
  { s with events := s.events ++ [e] }

@[simp] theorem Session.network_tell (s : Session) (e : Event) : (s.tell e).network = s.network :=
  rfl

/-- One change of the network with the event that tells of it, an event that
tells of none, or a change of nothing that has an id. The voltage levels in
`doomed` may be removed, but gain nothing. -/
inductive Step (tight : Prop) (doomed : String → Prop) : Session → Session → Prop
  | note {s : Session} {e : Event} (he : e.isError = false) (hi : e.idChange? = none) :
    Step tight doomed s (s.tell e)
  | quiet {s : Session} {n : Network} (hn : n.Coherent tight) (hi : n.index = s.network.index) :
    Step tight doomed s { s with network := n }
  | gain {s : Session} {n : Network} {e : Event} {id : String} {entry : IndexEntry}
    (hn : s.network.Gains tight id entry n)
    (hd : ∀ vl, entry.voltageLevel = some vl → ¬doomed vl) (he : e.isError = false)
    (hi : e.idChange? = some (.add id)) : Step tight doomed s ⟨n, s.events ++ [e]⟩
  | lose {s : Session} {n : Network} {e : Event} {id : String} (hn : n.Coherent tight)
    (hid : id ∈ s.network.index) (hx : n.index = s.network.index.erase id)
    (he : e.isError = false) (hi : e.idChange? = some (.remove id)) :
    Step tight doomed s ⟨n, s.events ++ [e]⟩
  | clear {s : Session} {n : Network} {vl : String} (hn : n.Coherent tight) (hd : doomed vl)
    (hvl : vl ∈ s.network.voltageLevels)
    (hx : n.index = s.network.index.filter fun x e => x != vl && e.voltageLevel != some vl) :
    Step tight doomed s ⟨n, s.events ++ [.voltageLevelRemoved vl]⟩

abbrev Steps (tight : Prop) (doomed : String → Prop) : Session → Session → Prop :=
  Relation.ReflTransGen (Step tight doomed)

variable {tight : Prop} {doomed : String → Prop} {α β : Type} {s t : Session}

theorem Step.coherent (h : Step tight doomed s t) (hs : s.network.Coherent tight) :
    t.network.Coherent tight := by
  cases h with
  | note => exact hs
  | quiet hn => exact hn
  | gain hn => exact hn.coherent
  | lose hn => exact hn
  | clear hn => exact hn

theorem Steps.coherent (h : Steps tight doomed s t) (hs : s.network.Coherent tight) :
    t.network.Coherent tight := by
  induction h with
  | refl => exact hs
  | tail _ hstep ih => exact hstep.coherent ih

theorem Steps.events (h : Steps tight doomed s t) :
    ∃ more, t.events = s.events ++ more ∧ ∀ e ∈ more, e.isError = false := by
  induction h with
  | refl => exact ⟨[], by simp, by simp⟩
  | @tail t u _ hstep ih =>
    obtain ⟨more, ht, hmore⟩ := ih
    have hlast : ∃ last, u.events = t.events ++ last ∧ ∀ e ∈ last, e.isError = false := by
      cases hstep with
      | note he hi => exact ⟨_, rfl, by simpa using he⟩
      | quiet hn hi => exact ⟨[], by simp, by simp⟩
      | gain hn hd he hi => exact ⟨_, rfl, by simpa using he⟩
      | lose hn hid hx he hi => exact ⟨_, rfl, by simpa using he⟩
      | clear hn hd hvl hx => exact ⟨_, rfl, by simp [Event.isError, Event.severity, Event.report]⟩
    obtain ⟨last, hu, hlast⟩ := hlast
    refine ⟨more ++ last, by rw [hu, ht, List.append_assoc], fun e he => ?_⟩
    exact (List.mem_append.mp he).elim (hmore e) (hlast e)

namespace Run

/-- From a coherent network, the run takes steps only. It ends well with what
`post` says, or with a fault that is not internal and is told last if at all. -/
def Traced (tight : Prop) (doomed : String → Prop) (r : Run α) (s : Session)
    (post : α → Session → Prop) : Prop :=
  s.network.Coherent tight →
    match r s with
    | .ok a t => Steps tight doomed s t ∧ post a t
    | .error f t => f.kind ≠ .internal ∧
        ∃ u, Steps tight doomed s u ∧ (t = u ∨ t = u.tell (.refused f))

variable {x : Run α} {k : α → Run β} {p : α → Session → Prop} {q : β → Session → Prop}

theorem Traced.pure {a : α} (h : p a s) : Traced tight doomed (pure a) s p :=
  fun _ => ⟨.refl, h⟩

theorem Traced.throw {f : Fault} (h : f.kind ≠ .internal) :
    Traced tight doomed (throw f) s p :=
  fun _ => ⟨h, s, .refl, Or.inl rfl⟩

theorem Traced.refuse {f : Fault} (h : f.kind ≠ .internal) :
    Traced tight doomed (refuse f) s p :=
  fun _ => ⟨h, s, .refl, Or.inr rfl⟩

theorem Traced.post_of_ok (h : Traced tight doomed x s p) (hs : s.network.Coherent tight) {a : α}
    (hok : x s = .ok a t) : p a t := by
  have hrun := h hs
  rw [hok] at hrun
  exact hrun.2

theorem Traced.of_coherent (h : s.network.Coherent tight → Traced tight doomed x s p) :
    Traced tight doomed x s p :=
  fun hs => h hs hs

/-- What a run does from a session that steps lead to, it does from the first one. -/
theorem Traced.onward {y : Run α} (hst : Steps tight doomed s t) (he : x s = y t)
    (hy : Traced tight doomed y t p) : Traced tight doomed x s p := by
  intro hs
  have hy := hy (hst.coherent hs)
  rw [he]
  cases hr : y t with
  | ok b u =>
    rw [hr] at hy
    exact ⟨hst.trans hy.1, hy.2⟩
  | error f u =>
    rw [hr] at hy
    obtain ⟨hf, v, hv, hu⟩ := hy
    exact ⟨hf, v, hst.trans hv, hu⟩

theorem Traced.bind (hx : Traced tight doomed x s p)
    (hk : ∀ a t, p a t → Traced tight doomed (k a) t q) :
    Traced tight doomed (x >>= k) s q := by
  intro hs
  have hx := hx hs
  cases hr : x s with
  | error f t =>
    rw [hr] at hx
    rw [bind_apply, hr]
    exact hx
  | ok a t =>
    rw [hr] at hx
    exact Traced.onward hx.1 (by rw [bind_apply, hr]) (hk a t hx.2) hs

theorem Traced.mono {q : α → Session → Prop} (hx : Traced tight doomed x s p)
    (h : ∀ a t, p a t → q a t) : Traced tight doomed x s q := by
  intro hs
  have hx := hx hs
  cases hr : x s with
  | error f t =>
    rw [hr] at hx
    exact hx
  | ok a t =>
    rw [hr] at hx
    exact ⟨hx.1, h a t hx.2⟩

theorem Traced.network_bind {k : Network → Run β} (h : Traced tight doomed (k s.network) s q) :
    Traced tight doomed (network >>= k) s q :=
  h

theorem Traced.lookUp_bind {answer : Except Fault α}
    (hok : ∀ a, answer = .ok a → Traced tight doomed (k a) s q)
    (herror : ∀ f, answer = .error f → f.kind ≠ .internal) :
    Traced tight doomed (lookUp answer >>= k) s q := by
  cases answer with
  | ok a => exact hok a rfl
  | error f => exact Traced.throw (herror f rfl)

theorem Traced.emit {e : Event} {p : Unit → Session → Prop} (he : e.isError = false)
    (hi : e.idChange? = none) (h : p () (s.tell e)) : Traced tight doomed (emit e) s p :=
  fun _ => ⟨.single (.note he hi), h⟩

theorem Traced.emit_bind {e : Event} {k : Unit → Run β} (he : e.isError = false)
    (hi : e.idChange? = none) (h : Traced tight doomed (k ()) (s.tell e) q) :
    Traced tight doomed (Run.emit e >>= k) s q :=
  Traced.bind (Traced.emit (p := fun _ t => t = s.tell e) he hi rfl) fun _ _ ht => ht ▸ h

theorem Traced.refuse_bind {f : Fault} (h : f.kind ≠ .internal) :
    Traced tight doomed (Run.refuse f >>= k) s q :=
  Traced.bind (p := fun _ _ => False) (Traced.refuse h) fun _ _ hp => hp.elim

theorem Traced.ite {c : Prop} [Decidable c] {x y : Run α}
    (hx : c → Traced tight doomed x s p) (hy : ¬c → Traced tight doomed y s p) :
    Traced tight doomed (if c then x else y) s p := by
  split
  · exact hx ‹_›
  · exact hy ‹_›

/-- A change that is told at once is one step. -/
theorem Traced.told {change : Edit α} {e : α → Event} {p : Unit → Session → Prop}
    (h : s.network.Coherent tight →
      (∃ a n, change s.network = .ok a n ∧ Step tight doomed s ⟨n, s.events ++ [e a]⟩ ∧
        p () ⟨n, s.events ++ [e a]⟩) ∨ change.Refuses s.network) :
    Traced tight doomed (edit change >>= fun a => Run.emit (e a)) s p := by
  intro hs
  obtain ⟨a, n, hok, hstep, hpost⟩ | ⟨f, herror, hf⟩ := h hs
  · simp only [bind_apply, edit, hok]
    exact ⟨.single hstep, hpost⟩
  · simp only [bind_apply, edit, herror]
    exact ⟨hf, s, .refl, Or.inl rfl⟩

theorem Traced.told_bind {change : Edit α} {e : α → Event} {k : α → Run β}
    (h : s.network.Coherent tight →
      (∃ a n, change s.network = .ok a n ∧ Step tight doomed s ⟨n, s.events ++ [e a]⟩ ∧
        Traced tight doomed (k a) ⟨n, s.events ++ [e a]⟩ q) ∨ change.Refuses s.network) :
    Traced tight doomed (edit change >>= fun a => Run.emit (e a) >>= fun _ => k a) s q := by
  have hassoc : (edit change >>= fun a => Run.emit (e a) >>= fun _ => k a) =
      ((edit change >>= fun a => Run.emit (e a) >>= fun _ => Pure.pure a) >>= k) := by
    simp only [bind_assoc, pure_bind]
  rw [hassoc]
  refine Traced.bind (p := fun a t => Traced tight doomed (k a) t q) ?_ fun a t hk => hk
  intro hs
  obtain ⟨a, n, hok, hstep, hk⟩ | ⟨f, herror, hf⟩ := h hs
  · simp only [bind_apply, edit, hok]
    exact ⟨.single hstep, hk⟩
  · simp only [bind_apply, edit, herror]
    exact ⟨hf, s, .refl, Or.inl rfl⟩

/-- A change of nothing that has an id needs no report. -/
theorem Traced.quiet {change : Edit α}
    (h : s.network.Coherent tight →
      (∃ a n, change s.network = .ok a n ∧ n.Coherent tight ∧ n.index = s.network.index ∧
        p a { s with network := n }) ∨ change.Refuses s.network) :
    Traced tight doomed (edit change) s p := by
  intro hs
  obtain ⟨a, n, hok, hn, hi, hpost⟩ | ⟨f, herror, hf⟩ := h hs
  · simp only [edit, hok]
    exact ⟨.single (.quiet hn hi), hpost⟩
  · simp only [edit, herror]
    exact ⟨hf, s, .refl, Or.inl rfl⟩

end Run

end Switchyard
