import Capsule.Library.Outcome
import Capsule.Library.Trace

/-!
# Clients that exchange messages with one server

Any number of clients are connected to a server by links that keep messages and their order.  The
server takes the first message of some client, handles it, which changes its state and may produce
an answer, and takes another; an exception ends it.  Answers leave in the order in which they were
produced, and the `n`-th of them goes to the client `route n`, which need not be the one that asked:
whether it is depends on the kind of the server's socket.

The laws hold in every run, whichever clients the server picks:

* what a client has sent is what the server took from it and what is still on the way
  (`requests_conserved`);
* what a client has received and what is on the way to it are the answers that were routed to it
  (`replies_conserved`);
* the server's state is that of handling the messages it took one after the other (`sequential`);
* what holds of any two messages of one client in their order, and of any two of different clients,
  holds of the messages in the order in which the server took them (`taken_pairwise`).
-/

set_option autoImplicit false

namespace Capsule.Library

variable {C M R σ ε : Type} [DecidableEq C]

/-- The server, and the messages on the way to it and back. -/
structure Exchange (C M R σ : Type) where
  server : σ
  running : Bool
  /-- from each client, sent and not yet taken -/
  asked : C → List M
  /-- to each client, answered and not yet received -/
  replied : C → List R
  /-- the number of answers so far -/
  count : ℕ

/-- What can be seen of a step. -/
inductive ExchangeEvent (C M R ε : Type) where
  /-- a client sends a message -/
  | send (c : C) (m : M)
  /-- the server handles the first message of a client -/
  | serve (c : C) (m : M) (r : Option R)
  /-- the server ends at the first message of a client -/
  | stop (c : C) (m : M) (e : ε)
  /-- a client receives an answer -/
  | receive (c : C) (r : R)

namespace Exchange

/-- Nothing has been sent yet. -/
def start (s : σ) : Exchange C M R σ := ⟨s, true, fun _ => [], fun _ => [], 0⟩

/-- The `n`-th answer, if there is one, is on its way. -/
def reply (route : ℕ → C) (x : Exchange C M R σ) : Option R → Exchange C M R σ
  | none => x
  | some r =>
    { x with
      replied := Function.update x.replied (route x.count) (x.replied (route x.count) ++ [r])
      count := x.count + 1 }

/-- One step of the whole. -/
inductive Step (handle : M → EStateM ε σ (Option R)) (route : ℕ → C) :
    Exchange C M R σ → ExchangeEvent C M R ε → Exchange C M R σ → Prop
  | send (x : Exchange C M R σ) (c : C) (m : M) :
      Step handle route x (.send c m)
        { x with asked := Function.update x.asked c (x.asked c ++ [m]) }
  | serve {x : Exchange C M R σ} {c : C} {m : M} {rest : List M} {r : Option R} {s : σ}
      (hrun : x.running = true) (hq : x.asked c = m :: rest) (hm : handle m x.server = .ok r s) :
      Step handle route x (.serve c m r)
        (reply route { x with server := s, asked := Function.update x.asked c rest } r)
  | stop {x : Exchange C M R σ} {c : C} {m : M} {rest : List M} {e : ε} {s : σ}
      (hrun : x.running = true) (hq : x.asked c = m :: rest) (hm : handle m x.server = .error e s) :
      Step handle route x (.stop c m e)
        { x with server := s, running := false, asked := Function.update x.asked c rest }
  | receive {x : Exchange C M R σ} {c : C} {r : R} {rest : List R} (hq : x.replied c = r :: rest) :
      Step handle route x (.receive c r) { x with replied := Function.update x.replied c rest }

end Exchange

namespace ExchangeEvent

/-- The message a client sends. -/
def sent (c : C) : ExchangeEvent C M R ε → Option M
  | send c' m => if c' = c then some m else none
  | _ => none

/-- The client and its message that the server takes. -/
def taken : ExchangeEvent C M R ε → Option (C × M)
  | serve c m _ => some (c, m)
  | stop c m _ => some (c, m)
  | _ => none

/-- The message that the server handles, and what it answers. -/
def served : ExchangeEvent C M R ε → Option (M × Option R)
  | serve _ m r => some (m, r)
  | _ => none

/-- The answer, and who asked for it. -/
def answered : ExchangeEvent C M R ε → Option (C × R)
  | serve c _ r => r.map fun r => (c, r)
  | _ => none

/-- The answer a client receives. -/
def received (c : C) : ExchangeEvent C M R ε → Option R
  | receive c' r => if c' = c then some r else none
  | _ => none

end ExchangeEvent

section

variable (es : List (ExchangeEvent C M R ε))

/-- What a client has sent. -/
def sentBy (c : C) : List M := es.filterMap (ExchangeEvent.sent c)

/-- The messages that the server took. -/
def takenAll : List (C × M) := es.filterMap ExchangeEvent.taken

/-- The messages that the server took from a client. -/
def takenFrom (c : C) : List M :=
  (takenAll es).filterMap fun a => if a.1 = c then some a.2 else none

/-- The messages that the server handled, with its answers. -/
def servedAll : List (M × Option R) := es.filterMap ExchangeEvent.served

/-- The answers, with those who asked for them. -/
def answeredAll : List (C × R) := es.filterMap ExchangeEvent.answered

/-- The answers to the messages of a client. -/
def answersTo (c : C) : List R :=
  (answeredAll es).filterMap fun a => if a.1 = c then some a.2 else none

/-- What a client has received. -/
def receivedBy (c : C) : List R := es.filterMap (ExchangeEvent.received c)

end

section

variable (es : List (ExchangeEvent C M R ε)) (e : ExchangeEvent C M R ε) (c : C)

/-- The selection of a list with one more element. -/
theorem filterMap_concat {α β : Type} (f : α → Option β) (l : List α) (a : α) :
    (l ++ [a]).filterMap f = l.filterMap f ++ (f a).toList := by
  rw [List.filterMap_append]
  cases h : f a <;> simp [h]

/-- What a client has sent after one more event. -/
theorem sentBy_concat : sentBy (es ++ [e]) c = sentBy es c ++ (e.sent c).toList :=
  filterMap_concat _ _ _

omit [DecidableEq C] in
/-- What the server has taken after one more event. -/
theorem takenAll_concat : takenAll (es ++ [e]) = takenAll es ++ e.taken.toList :=
  filterMap_concat _ _ _

omit [DecidableEq C] in
/-- What the server has served after one more event. -/
theorem servedAll_concat : servedAll (es ++ [e]) = servedAll es ++ e.served.toList :=
  filterMap_concat _ _ _

omit [DecidableEq C] in
/-- What the server has answered after one more event. -/
theorem answeredAll_concat : answeredAll (es ++ [e]) = answeredAll es ++ e.answered.toList :=
  filterMap_concat _ _ _

/-- What a client has received after one more event. -/
theorem receivedBy_concat : receivedBy (es ++ [e]) c = receivedBy es c ++ (e.received c).toList :=
  filterMap_concat _ _ _

/-- What the server has taken from a client after one more event. -/
theorem takenFrom_concat :
    takenFrom (es ++ [e]) c =
      takenFrom es c ++ e.taken.toList.filterMap fun a => if a.1 = c then some a.2 else none := by
  rw [takenFrom, takenAll_concat, List.filterMap_append]
  rfl

end

/-- Of the answers, from the `n`-th on, those that are routed to a client. -/
def routedTo (route : ℕ → C) (c : C) : ℕ → List R → List R
  | _, [] => []
  | n, r :: rs => (if route n = c then [r] else []) ++ routedTo route c (n + 1) rs

/-- What is routed to a client when one more reply is handed out. -/
theorem routedTo_concat (route : ℕ → C) (c : C) (n : ℕ) (rs : List R) (r : R) :
    routedTo route c n (rs ++ [r]) =
      routedTo route c n rs ++ if route (n + rs.length) = c then [r] else [] := by
  induction rs generalizing n with
  | nil => simp [routedTo]
  | cons q rs ih =>
    rw [List.cons_append, routedTo, ih, routedTo, List.append_assoc, List.length_cons,
      show n + 1 + rs.length = n + (rs.length + 1) by omega]

/-- Where all answers are routed to the only client that asks, it gets its own. -/
theorem routedTo_eq_filterMap {route : ℕ → C} {c₀ : C} {as : List (C × R)}
    (hasked : ∀ a ∈ as, a.1 = c₀) (hroute : ∀ n, route n = c₀) (n : ℕ) (c : C) :
    routedTo route c n (as.map Prod.snd) =
      as.filterMap fun a => if a.1 = c then some a.2 else none := by
  induction as generalizing n with
  | nil => rfl
  | cons a as ih =>
    rw [List.map_cons, routedTo, List.filterMap_cons,
      ih (fun a' ha' => hasked a' (List.mem_cons_of_mem a ha')), hroute,
      hasked a List.mem_cons_self]
    by_cases hc : c₀ = c <;> simp [hc]

/-! ## The laws -/

namespace Exchange

variable {handle : M → EStateM ε σ (Option R)} {route : ℕ → C} {s₀ : σ} {x : Exchange C M R σ}
  {es : List (ExchangeEvent C M R ε)}

/-- Handing out a reply leaves the queues of requests alone. -/
theorem asked_reply (x : Exchange C M R σ) (r : Option R) : (x.reply route r).asked = x.asked := by
  cases r <;> rfl

/-- Handing out a reply leaves the server alone. -/
theorem server_reply (x : Exchange C M R σ) (r : Option R) :
    (x.reply route r).server = x.server := by
  cases r <;> rfl

/-- **No request is lost or taken twice, and the requests of a client are taken in order.** -/
theorem requests_conserved (h : Run (Step handle route) (start s₀) es x) (c : C) :
    sentBy es c = takenFrom es c ++ x.asked c := by
  refine h.invariant (P := fun es x => sentBy es c = takenFrom es c ++ x.asked c) rfl ?_
  rintro pre e u v - - hu hstep
  rw [sentBy_concat, takenFrom_concat, hu]
  -- the server takes the first message of the client `c'`
  have htake : ∀ {c' : C} {m : M} {rest : List M}, u.asked c' = m :: rest →
      takenFrom pre c ++ u.asked c = takenFrom pre c ++
        (if c' = c then [m] else []) ++ Function.update u.asked c' rest c := by
    intro c' m rest hq
    by_cases hc : c' = c
    · subst hc
      simp [hq]
    · simp [hc, Function.update_of_ne (Ne.symm hc)]
  cases hstep with
  | send c' m =>
    by_cases hc : c' = c
    · subst hc
      simp [ExchangeEvent.sent, ExchangeEvent.taken]
    · simp [ExchangeEvent.sent, ExchangeEvent.taken, hc, Function.update_of_ne (Ne.symm hc)]
  | @serve c' m rest r s _ hq _ =>
    rw [asked_reply, htake hq]
    by_cases hc : c' = c <;> simp [ExchangeEvent.sent, ExchangeEvent.taken, hc]
  | @stop c' m rest e s _ hq _ =>
    rw [htake hq]
    by_cases hc : c' = c <;> simp [ExchangeEvent.sent, ExchangeEvent.taken, hc]
  | receive => simp [ExchangeEvent.sent, ExchangeEvent.taken]

/-- **No answer is lost or delivered twice**: each goes where its number is routed to. -/
theorem replies_conserved (h : Run (Step handle route) (start s₀) es x) :
    x.count = (answeredAll es).length ∧
    ∀ c, receivedBy es c ++ x.replied c = routedTo route c 0 ((answeredAll es).map Prod.snd) := by
  refine h.invariant (P := fun es x => x.count = (answeredAll es).length ∧
    ∀ c, receivedBy es c ++ x.replied c = routedTo route c 0 ((answeredAll es).map Prod.snd))
    ⟨rfl, fun _ => rfl⟩ ?_
  rintro pre e u v - - ⟨hcount, hu⟩ hstep
  rw [answeredAll_concat]
  simp only [receivedBy_concat]
  cases hstep with
  | send => simpa [ExchangeEvent.answered, ExchangeEvent.received] using ⟨hcount, hu⟩
  | @serve c' m rest r s _ _ _ =>
    cases r with
    | none => simpa [ExchangeEvent.answered, ExchangeEvent.received, reply] using ⟨hcount, hu⟩
    | some r =>
      refine ⟨by simp [ExchangeEvent.answered, reply, hcount], fun c => ?_⟩
      simp only [ExchangeEvent.answered, ExchangeEvent.received, Option.map_some,
        Option.toList_some, Option.toList_none, List.append_nil, List.map_append,
        List.map_singleton]
      rw [routedTo_concat, ← hu, Nat.zero_add, List.length_map, ← hcount]
      by_cases hc : route u.count = c
      · subst hc
        simp [reply]
      · simp [reply, hc, Function.update_of_ne (Ne.symm hc)]
  | stop => simpa [ExchangeEvent.answered, ExchangeEvent.received] using ⟨hcount, hu⟩
  | @receive c' r rest hq =>
    refine ⟨by simp [ExchangeEvent.answered, hcount], fun c => ?_⟩
    simp only [ExchangeEvent.answered, Option.toList_none, List.append_nil]
    rw [← hu]
    by_cases hc : c' = c
    · subst hc
      simp [ExchangeEvent.received, hq]
    · simp [ExchangeEvent.received, hc, Function.update_of_ne (Ne.symm hc)]

/-- One message is handled, with its result. -/
def Handles {T : Type} (handle : M → EStateM ε σ T) (s : σ) (a : M × T) (s' : σ) : Prop :=
  handle a.1 s = .ok a.2 s'

/-- **The server is sequential**: its state is that of handling the messages it took one after the
other. -/
theorem sequential (h : Run (Step handle route) (start s₀) es x) :
    ∃ s, Run (Handles handle) s₀ (servedAll es) s ∧ (x.running = true → s = x.server) := by
  refine h.invariant (P := fun es x => ∃ s, Run (Handles handle) s₀ (servedAll es) s ∧
    (x.running = true → s = x.server)) ⟨s₀, Run.nil s₀, fun _ => rfl⟩ ?_
  rintro pre e u v - - ⟨s, hs, hserver⟩ hstep
  rw [servedAll_concat]
  have hsame : ∀ {e' : ExchangeEvent C M R ε}, e'.served = none →
      Run (Handles handle) s₀ (servedAll pre ++ e'.served.toList) s := by
    intro e' he'
    rwa [he', Option.toList_none, List.append_nil]
  cases hstep with
  | send => exact ⟨s, hsame rfl, hserver⟩
  | @serve c m rest r s' hrun _ hm =>
    refine ⟨s', ?_, fun _ => by rw [server_reply]⟩
    have hhandles : Handles handle s (m, r) s' := by
      rw [hserver hrun]
      exact hm
    exact Run.snoc hs hhandles
  | stop => exact ⟨s, hsame rfl, fun hrun => absurd hrun (by simp)⟩
  | receive => exact ⟨s, hsame rfl, hserver⟩

/-- While the server runs, it has handled all that it took. -/
theorem taken_eq_served (h : Run (Step handle route) (start s₀) es x) (hrun : x.running = true) :
    (takenAll es).map Prod.snd = (servedAll es).map Prod.fst := by
  refine h.invariant (P := fun es x => x.running = true →
    (takenAll es).map Prod.snd = (servedAll es).map Prod.fst) (fun _ => rfl) ?_ hrun
  rintro pre e u v - - hu hstep hv
  rw [takenAll_concat, servedAll_concat, List.map_append, List.map_append]
  cases hstep with
  | send => simpa [ExchangeEvent.taken, ExchangeEvent.served] using hu hv
  | serve hrun _ _ => simp [ExchangeEvent.taken, ExchangeEvent.served, hu hrun]
  | stop => exact absurd hv (by simp)
  | receive => simpa [ExchangeEvent.taken, ExchangeEvent.served] using hu hv

/-- What the server has taken from a client is the beginning of what the client has sent. -/
theorem takenFrom_initial (h : Run (Step handle route) (start s₀) es x) (c : C) :
    takenFrom es c <+: sentBy es c := ⟨_, (requests_conserved h c).symm⟩

/-- What was taken from a client is what was taken with its name. -/
theorem mem_takenFrom {c : C} {m : M} : m ∈ takenFrom es c ↔ (c, m) ∈ takenAll es := by
  unfold takenFrom
  rw [List.mem_filterMap]
  constructor
  · rintro ⟨⟨c', m'⟩, ha, hm⟩
    by_cases hc : c' = c
    · rw [if_pos hc] at hm
      rw [← Option.some.inj hm, ← hc]
      exact ha
    · simp [hc] at hm
  · intro h
    exact ⟨(c, m), h, if_pos rfl⟩

/-- Whoever is answered has sent something. -/
theorem answered_asked (h : Run (Step handle route) (start s₀) es x) {a : C × R}
    (ha : a ∈ answeredAll es) : sentBy es a.1 ≠ [] := by
  obtain ⟨e, he, hanswer⟩ := List.mem_filterMap.mp ha
  cases e with
  | serve c m r =>
    obtain ⟨r', -, rfl⟩ := Option.map_eq_some_iff.mp hanswer
    have htaken : (c, m) ∈ takenAll es := List.mem_filterMap.mpr ⟨_, he, rfl⟩
    exact List.ne_nil_of_mem ((takenFrom_initial h c).subset (mem_takenFrom.mpr htaken))
  | send => cases hanswer
  | stop => cases hanswer
  | receive => cases hanswer

/-- **What holds of the messages of every client in their order, and of any two messages of
different clients, holds of all messages in the order in which the server took them.** -/
theorem taken_pairwise (h : Run (Step handle route) (start s₀) es x) {P : M → M → Prop}
    (hsame : ∀ c, (sentBy es c).Pairwise P)
    (hdiff : ∀ c c' m m', c ≠ c' → m ∈ sentBy es c → m' ∈ sentBy es c' → P m m') :
    ((takenAll es).map Prod.snd).Pairwise P := by
  rw [List.pairwise_map, List.pairwise_iff_forall_sublist]
  rintro ⟨c, m⟩ ⟨c', m'⟩ hsub
  show P m m'
  by_cases hc : c = c'
  · subst hc
    -- the two messages stand in this order among those of their client
    have hpair : [m, m'].Sublist (takenFrom es c) := by
      have hmap := hsub.filterMap fun a : C × M => if a.1 = c then some a.2 else none
      simpa [takenFrom] using hmap
    have hp := (hsame c).sublist (hpair.trans (takenFrom_initial h c).sublist)
    simpa using hp
  · have hmem : ∀ a ∈ [(c, m), (c', m')], a ∈ takenAll es := fun a ha => hsub.subset ha
    refine hdiff c c' m m' hc ?_ ?_
    · exact (takenFrom_initial h c).subset (mem_takenFrom.mpr (hmem _ (by simp)))
    · exact (takenFrom_initial h c').subset (mem_takenFrom.mpr (hmem _ (by simp)))

end Exchange

end Capsule.Library
