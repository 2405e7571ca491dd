import Galette.Pipeline.Session
import Galette.Protocol.Proofs.WireProofs

/-!
# Proofs: sessions

`Moves` says once what an event can do to a connection; the invariants are read off it. On the
connection of a runtime nothing travels but its request, the answer to it, and frames that carry no
message. On any connection the server replies to what it has read, in order, and to nothing else.
-/

namespace Galette.Pipeline

open Galette.Lib Galette.Protocol Galette.Chainsmith Galette.Pulley

namespace Conn

variable {S : Service} {peer : Peer} {c c' : Conn} {a : Event}

/-- What can happen to a connection. -/
inductive Moves (S : Service) : Peer → Conn → Event → Conn → Prop where
  | refused {t : Target} {c : Conn} {e : WsError} (hc : c.client = .start) :
      Moves S (.runtime t) c (.refused e) { c with client := .done (.error (.connect e)) }
  | send {t : Target} {c : Conn} {e : WsError} (hc : c.client = .start) (hup : c.up = true) :
      Moves S (.runtime t) c (.clientSend e)
        { c with toServer := c.toServer ++ [request S.wire t.triple], client := .waiting }
  | sendFails {t : Target} {c : Conn} {e : WsError} (hc : c.client = .start) (hup : c.up = false) :
      Moves S (.runtime t) c (.clientSend e) { c with client := .done (.error (.sendRequest e)) }
  | skip {t : Target} {c : Conn} {m : Message} {rest : List Message} (hc : c.client = .waiting)
      (hq : c.toClient = m :: rest) (hm : onNext S.wire (some (.ok m)) = none) :
      Moves S (.runtime t) c .clientNext { c with toClient := rest }
  | finish {t : Target} {c : Conn} {m : Message} {rest : List Message}
      {r : Except ChainGetError Protocol.Chain} (hc : c.client = .waiting)
      (hq : c.toClient = m :: rest) (hm : onNext S.wire (some (.ok m)) = some r) :
      Moves S (.runtime t) c .clientNext { c with toClient := rest, client := .done r }
  | take {c : Conn} {m : Message} {rest : List Message} (hq : c.toClient = m :: rest) :
      Moves S .stranger c .clientNext { c with toClient := rest }
  | wsRecv {t : Target} {c : Conn} {e : WsError} (hc : c.client = .waiting) (hup : c.up = false) :
      Moves S (.runtime t) c (.clientEnd (some e)) { c with client := .done (.error (.wsRecv e)) }
  | sessionClosed {t : Target} {c : Conn} (hc : c.client = .waiting) (hup : c.up = false) :
      Moves S (.runtime t) c (.clientEnd none) { c with client := .done (.error .sessionClosed) }
  | stop {peer : Peer} {c : Conn} {m : Message} {rest : List Message} {e : DeserError} {sent : Bool}
      (hs : c.server = .listening) (hq : c.toServer = m :: rest)
      (hm : onMessage S.wire S.cDat m = .error e) :
      Moves S peer c (.serverNext sent)
        { c with toServer := rest, read := c.read ++ [m], server := .finished }
  | ignore {peer : Peer} {c : Conn} {m : Message} {rest : List Message} {sent : Bool}
      (hs : c.server = .listening) (hq : c.toServer = m :: rest)
      (hm : onMessage S.wire S.cDat m = .ok none) :
      Moves S peer c (.serverNext sent) { c with toServer := rest, read := c.read ++ [m] }
  | reply {peer : Peer} {c : Conn} {m reply : Message} {rest : List Message} {sent : Bool}
      (hs : c.server = .listening) (hq : c.toServer = m :: rest)
      (hm : onMessage S.wire S.cDat m = .ok (some reply)) (hup : c.up = true) :
      Moves S peer c (.serverNext sent)
        { c with
          toServer := rest
          read := c.read ++ [m]
          toClient := c.toClient ++ [reply]
          replies := c.replies ++ [reply] }
  | replyLost {peer : Peer} {c : Conn} {m reply : Message} {rest : List Message} {sent : Bool}
      (hs : c.server = .listening) (hq : c.toServer = m :: rest)
      (hm : onMessage S.wire S.cDat m = .ok (some reply)) (hup : c.up = false) :
      Moves S peer c (.serverNext sent)
        { c with
          toServer := rest
          read := c.read ++ [m]
          replies := c.replies ++ [reply]
          server := if sent then .listening else .panicked }
  | serverEnd {peer : Peer} {c : Conn} (hs : c.server = .listening) (hup : c.up = false) :
      Moves S peer c .serverEnd { c with server := .finished }
  | inject {c : Conn} {m : Message} (hup : c.up = true) :
      Moves S .stranger c (.inject m) { c with toServer := c.toServer ++ [m] }
  | controlServer {peer : Peer} {c : Conn} {m : Message} (hm : isControl m = true) :
      Moves S peer c (.control m true) { c with toServer := c.toServer ++ [m] }
  | controlClient {peer : Peer} {c : Conn} {m : Message} (hm : isControl m = true) :
      Moves S peer c (.control m false) { c with toClient := c.toClient ++ [m] }
  | closeServer {peer : Peer} {c : Conn} {frame : Option (UInt16 × String)} :
      Moves S peer c (.close frame true)
        { c with toServer := c.toServer ++ [.close frame], shut := true }
  | closeClient {peer : Peer} {c : Conn} {frame : Option (UInt16 × String)} :
      Moves S peer c (.close frame false)
        { c with toClient := c.toClient ++ [.close frame], shut := true }
  | lost {peer : Peer} {c : Conn} {i j : Nat} :
      Moves S peer c (.lost i j)
        { c with up := false, toServer := c.toServer.take i, toClient := c.toClient.take j }

theorem step_moves (h : step S peer c a = some c') : Moves S peer c a c' := by
  cases a with
  | refused e =>
    simp only [step] at h
    split at h
    · obtain rfl := Option.some.inj h
      exact .refused ‹_›
    · cases h
  | clientSend e =>
    simp only [step] at h
    split at h
    · split at h
      · obtain rfl := Option.some.inj h
        exact .send ‹_› ‹_›
      · obtain rfl := Option.some.inj h
        exact .sendFails ‹_› (Bool.not_eq_true _ ▸ ‹_›)
    · cases h
  | clientNext =>
    simp only [step] at h
    split at h
    · cases h
    · rename_i m rest hq
      split at h
      · rename_i hread
        obtain rfl := Option.some.inj h
        cases peer with
        | stranger => exact .take hq
        | runtime t =>
          have hc : c.client = .waiting := by
            cases hcl : c.client <;> simp [canRead, hcl] at hread ⊢
          unfold afterNext
          cases hm : onNext S.wire (some (.ok m)) with
          | none => exact .skip hc hq hm
          | some r => exact .finish hc hq hm
      · cases h
  | clientEnd e =>
    simp only [step] at h
    split at h
    · rename_i hc _ hup
      cases e with
      | none =>
        obtain rfl := Option.some.inj h
        exact .sessionClosed hc hup
      | some e =>
        obtain rfl := Option.some.inj h
        exact .wsRecv hc hup
    · cases h
  | serverNext sent =>
    simp only [step] at h
    split at h
    · rename_i m rest hs hq
      obtain rfl := Option.some.inj h
      unfold afterRead
      cases hm : onMessage S.wire S.cDat m with
      | error e => exact .stop hs hq hm
      | ok o =>
        cases o with
        | none => exact .ignore hs hq hm
        | some reply =>
          dsimp only
          split
          · exact .reply hs hq hm ‹_›
          · rename_i hup
            have hlost : Moves S peer c (.serverNext sent) _ :=
              .replyLost hs hq hm (by simpa using hup)
            cases sent with
            | true => rw [hs]; exact hlost
            | false => exact hlost
    · cases h
  | serverEnd =>
    simp only [step] at h
    split at h
    · obtain rfl := Option.some.inj h
      exact .serverEnd ‹_› ‹_›
    · cases h
  | inject m =>
    simp only [step] at h
    split at h
    · split at h
      · obtain rfl := Option.some.inj h
        exact .inject ‹_›
      · cases h
    · cases h
  | control m toServer =>
    simp only [step] at h
    split at h
    · rename_i hm
      obtain rfl := Option.some.inj h
      have hm := (Bool.and_eq_true_iff.1 hm).2
      cases toServer with
      | true => exact .controlServer hm
      | false => exact .controlClient hm
    · cases h
  | close frame toServer =>
    simp only [step] at h
    split at h
    · obtain rfl := Option.some.inj h
      cases toServer with
      | true => exact .closeServer
      | false => exact .closeClient
    · cases h
  | lost i j =>
    obtain rfl := Option.some.inj h
    exact .lost

end Conn

/-! ## Single messages -/

section Messages

variable (S : Service) (t : Target)

/-- The reply to the request of a runtime. -/
def replyFor : Message := ser S.wire.serverToClient (answer S.cDat t.triple)

theorem answer_fits : (answer S.cDat t.triple).Fits := by
  unfold answer
  cases h : S.cDat.lookup t.triple with
  | none => exact t.errorFits
  | some m => exact S.fits _ m h

theorem onMessage_request :
    onMessage S.wire S.cDat (request S.wire t.triple) = .ok (some (replyFor S t)) := by
  have hfits : (ClientToServer.requestChain t.triple).Fits := t.fits
  obtain ⟨_, rfl, hd⟩ := deser_ser (@Postcard.clientToServer_lawful S.wire) hfits
  simp only [onMessage, request, hd, replyFor]

theorem onNext_reply :
    ∃ r, onNext S.wire (some (.ok (replyFor S t))) = some r ∧
      AnsweredBy (answer S.cDat t.triple) r := by
  obtain ⟨m, hs, hd⟩ := deser_ser (@Postcard.serverToClient_lawful S.wire) (answer_fits S t)
  cases m with
  | chain c => exact ⟨.ok c, by simp only [onNext, replyFor, hd], .chain hs⟩
  | requestChainError msg =>
    exact ⟨.error (.serverError msg), by simp only [onNext, replyFor, hd], .error hs⟩

theorem onMessage_control {m : Message} (hm : isControl m = true) :
    onMessage S.wire S.cDat m = .ok none := by
  cases m <;> simp [isControl] at hm <;> rfl

theorem onNext_control {m : Message} (hm : isControl m = true) :
    onNext S.wire (some (.ok m)) = none := by
  cases m <;> simp [isControl] at hm <;> rfl

end Messages

/-! ## The connection of a runtime -/

/-- What may travel on the connection of a runtime: one message, frames without a message, and the
frame that closes the WebSocket, once there was one. -/
def Expected (msg : Message) (shut : Bool) (m : Message) : Prop :=
  m = msg ∨ isControl m = true ∨ (∃ frame, m = .close frame) ∧ shut = true

structure RuntimeInv (S : Service) (t : Target) (c : Conn) : Prop where
  toServer : ∀ m ∈ c.toServer, Expected (request S.wire t.triple) c.shut m
  toClient : ∀ m ∈ c.toClient, Expected (replyFor S t) c.shut m
  done : ∀ r, c.client = .done r → EndsWith c.up c.shut (answer S.cDat t.triple) r
  listening : c.up = true → c.shut = false → c.server = .listening
  -- the request or the reply is underway
  token : c.up = true → c.shut = false → c.client = .waiting →
    request S.wire t.triple ∈ c.toServer ∨ replyFor S t ∈ c.toClient

section Runtime

variable {S : Service} {t : Target} {c c' : Conn} {a : Event}

theorem EndsWith.mono {up up' shut shut' : Bool} {m : ServerToClient}
    {r : Except ChainGetError Protocol.Chain} (h : EndsWith up shut m r)
    (hup : up = false → up' = false) (hshut : shut = true → shut' = true) :
    EndsWith up' shut' m r := by
  cases h with
  | answered h => exact .answered h
  | connect e => exact .connect e
  | sendRequest h => exact .sendRequest (hup h)
  | wsRecv h => exact .wsRecv (hup h)
  | sessionClosed h => exact .sessionClosed (hup h)
  | closed h => exact .closed (hshut h)

theorem Expected.shut {msg m : Message} {b : Bool} (h : Expected msg b m) :
    Expected msg true m := by
  rcases h with h | h | h
  · exact .inl h
  · exact .inr (.inl h)
  · exact .inr (.inr ⟨h.1, rfl⟩)

/-- What the runtime gets to read ends its loop as it should. -/
theorem onNext_expected {m : Message} {r : Except ChainGetError Protocol.Chain}
    (hm : Expected (replyFor S t) c.shut m) (hr : onNext S.wire (some (.ok m)) = some r) :
    EndsWith c.up c.shut (answer S.cDat t.triple) r := by
  rcases hm with rfl | hm | ⟨⟨frame, rfl⟩, hshut⟩
  · obtain ⟨r', hr', ha⟩ := onNext_reply S t
    obtain rfl := Option.some.inj (hr'.symm.trans hr)
    exact .answered ha
  · rw [onNext_control S hm] at hr
    cases hr
  · obtain rfl := Option.some.inj hr
    exact .closed hshut

/-- What the server reads from a runtime does not stop it, unless the WebSocket is closed. -/
theorem onMessage_expected {m : Message} {e : DeserError}
    (hm : Expected (request S.wire t.triple) c.shut m)
    (he : onMessage S.wire S.cDat m = .error e) : c.shut = true := by
  rcases hm with rfl | hm | ⟨_, hshut⟩
  · rw [onMessage_request] at he
    cases he
  · rw [onMessage_control S hm] at he
    cases he
  · exact hshut

/-- The server replies to nothing but the request. -/
theorem reply_expected {m reply : Message} (hm : Expected (request S.wire t.triple) c.shut m)
    (hr : onMessage S.wire S.cDat m = .ok (some reply)) : reply = replyFor S t := by
  rcases hm with rfl | hm | ⟨⟨frame, rfl⟩, _⟩
  · rw [onMessage_request] at hr
    exact (Option.some.inj (Except.ok.inj hr)).symm
  · rw [onMessage_control S hm] at hr
    cases hr
  · cases hr

theorem runtimeInv_start : RuntimeInv S t {} where
  toServer := by simp
  toClient := by simp
  done := by simp
  listening _ _ := rfl
  token := by simp

/-- The message that a queue starts with. -/
theorem Expected.head {msg : Message} {b : Bool} {q rest : List Message} {m : Message}
    (h : ∀ x ∈ q, Expected msg b x) (hq : q = m :: rest) :
    Expected msg b m ∧ ∀ x ∈ rest, Expected msg b x := by
  subst hq
  exact ⟨h m (List.mem_cons_self ..), fun x hx => h x (List.mem_cons_of_mem _ hx)⟩

theorem Expected.snoc {msg : Message} {b : Bool} {q : List Message} {m : Message}
    (h : ∀ x ∈ q, Expected msg b x) (hm : Expected msg b m) : ∀ x ∈ q ++ [m], Expected msg b x := by
  intro x hx
  rcases List.mem_append.1 hx with hx | hx
  · exact h x hx
  · obtain rfl := List.mem_singleton.1 hx
    exact hm

theorem RuntimeInv.moves (hI : RuntimeInv S t c) (h : Conn.Moves S (.runtime t) c a c') :
    RuntimeInv S t c' := by
  cases h with
  | refused hc =>
    refine { hI with done := ?_, token := by simp }
    rintro _ ⟨⟩
    exact .connect _
  | send hc hup =>
    refine { hI with toServer := Expected.snoc hI.toServer (.inl rfl), done := by simp, token := ?_ }
    intro _ _ _
    exact .inl (List.mem_append_right _ (List.mem_singleton_self _))
  | sendFails hc hup =>
    refine { hI with done := ?_, token := by simp }
    rintro _ ⟨⟩
    exact .sendRequest hup
  | skip hc hq hm =>
    obtain ⟨hmsg, hrest⟩ := Expected.head hI.toClient hq
    refine { hI with toClient := hrest, token := ?_ }
    intro hup hshut hw
    rcases hI.token hup hshut hw with htok | htok
    · exact .inl htok
    · rw [hq] at htok
      rcases List.mem_cons.1 htok with rfl | htok
      · obtain ⟨r, hr, _⟩ := onNext_reply S t
        rw [hr] at hm
        cases hm
      · exact .inr htok
  | finish hc hq hm =>
    obtain ⟨hmsg, hrest⟩ := Expected.head hI.toClient hq
    refine { hI with toClient := hrest, done := ?_, token := by simp }
    rintro _ ⟨⟩
    exact onNext_expected hmsg hm
  | wsRecv hc hup =>
    refine { hI with done := ?_, token := by simp }
    rintro _ ⟨⟩
    exact .wsRecv hup
  | sessionClosed hc hup =>
    refine { hI with done := ?_, token := by simp }
    rintro _ ⟨⟩
    exact .sessionClosed hup
  | stop hs hq hm =>
    obtain ⟨hmsg, hrest⟩ := Expected.head hI.toServer hq
    have hshut := onMessage_expected hmsg hm
    refine { hI with toServer := hrest, listening := ?_, token := ?_ }
    · intro _ hno
      rw [hshut] at hno
      cases hno
    · intro _ hno
      rw [hshut] at hno
      cases hno
  | ignore hs hq hm =>
    obtain ⟨hmsg, hrest⟩ := Expected.head hI.toServer hq
    refine { hI with toServer := hrest, token := ?_ }
    intro hup hshut hw
    rcases hI.token hup hshut hw with htok | htok
    · rw [hq] at htok
      rcases List.mem_cons.1 htok with rfl | htok
      · rw [onMessage_request] at hm
        cases hm
      · exact .inl htok
    · exact .inr htok
  | reply hs hq hm hup =>
    obtain ⟨hmsg, hrest⟩ := Expected.head hI.toServer hq
    have hreply := reply_expected hmsg hm
    subst hreply
    refine { hI with
      toServer := hrest
      toClient := Expected.snoc hI.toClient (.inl rfl)
      token := ?_ }
    intro _ _ _
    exact .inr (List.mem_append_right _ (List.mem_singleton_self _))
  | replyLost hs hq hm hup =>
    obtain ⟨hmsg, hrest⟩ := Expected.head hI.toServer hq
    refine { hI with toServer := hrest, listening := ?_, token := ?_ }
    · intro hno
      rw [hup] at hno
      cases hno
    · intro hno
      rw [hup] at hno
      cases hno
  | serverEnd hs hup =>
    refine { hI with listening := ?_ }
    intro hno
    rw [hup] at hno
    cases hno
  | controlServer hm =>
    refine { hI with toServer := Expected.snoc hI.toServer (.inr (.inl hm)), token := ?_ }
    intro hup hshut hw
    exact (hI.token hup hshut hw).imp_left (List.mem_append_left _)
  | controlClient hm =>
    refine { hI with toClient := Expected.snoc hI.toClient (.inr (.inl hm)), token := ?_ }
    intro hup hshut hw
    exact (hI.token hup hshut hw).imp_right (List.mem_append_left _)
  | closeServer =>
    refine
      { toServer := ?_
        toClient := fun m hm => (hI.toClient m hm).shut
        done := fun r hr => (hI.done r hr).mono id fun _ => rfl
        listening := by simp
        token := by simp }
    exact Expected.snoc (fun m hm => (hI.toServer m hm).shut) (.inr (.inr ⟨⟨_, rfl⟩, rfl⟩))
  | closeClient =>
    refine
      { toServer := fun m hm => (hI.toServer m hm).shut
        toClient := ?_
        done := fun r hr => (hI.done r hr).mono id fun _ => rfl
        listening := by simp
        token := by simp }
    exact Expected.snoc (fun m hm => (hI.toClient m hm).shut) (.inr (.inr ⟨⟨_, rfl⟩, rfl⟩))
  | lost =>
    exact
      { toServer := fun m hm => hI.toServer m (List.mem_of_mem_take hm)
        toClient := fun m hm => hI.toClient m (List.mem_of_mem_take hm)
        done := fun r hr => (hI.done r hr).mono (fun _ => rfl) id
        listening := by simp
        token := by simp }

theorem runtimeInv_of_reachable (h : Reachable (Conn.step S (.runtime t)) {} c) :
    RuntimeInv S t c :=
  h.inv (RuntimeInv S t) runtimeInv_start fun _ _ _ hI hstep => hI.moves (Conn.step_moves hstep)

end Runtime

/-! ## The server -/

section Server

variable {S : Service} {peer : Peer} {t : Target} {c c' : Conn} {a : Event}

theorem replyTo_error {m : Message} {e : DeserError} (h : onMessage S.wire S.cDat m = .error e) :
    replyTo S m = none := by
  simp only [replyTo, h]

theorem replyTo_ok {m : Message} {reply : Option Message}
    (h : onMessage S.wire S.cDat m = .ok reply) : replyTo S m = reply := by
  simp only [replyTo, h]

theorem readable_snoc {m : Message} {q : List Message} (h : ∀ x ∈ q, Readable S x)
    (hm : Readable S m) : ∀ x ∈ q ++ [m], Readable S x := by
  intro x hx
  rcases List.mem_append.1 hx with hx | hx
  · exact h x hx
  · obtain rfl := List.mem_singleton.1 hx
    exact hm

/-- The server has read one more message, which it understood. -/
theorem Serves.read {m : Message} {o : Option Message} (hI : Serves S c)
    (hs : c.server = .listening) (hm : onMessage S.wire S.cDat m = .ok o)
    (hread : c'.read = c.read ++ [m]) (hrep : c'.replies = c.replies ++ o.toList)
    (hpanic : c'.server = .panicked → c'.up = false) : Serves S c' where
  replies := by
    rw [hread, hrep, hI.replies, List.filterMap_append, List.filterMap_cons, List.filterMap_nil,
      replyTo_ok hm]
    cases o <;> rfl
  readable := by
    rw [hread, List.dropLast_concat]
    exact hI.listening hs
  listening _ := by
    rw [hread]
    exact readable_snoc (hI.listening hs) ⟨o, hm⟩
  panicked := hpanic

theorem Serves.moves (hI : Serves S c) (h : Conn.Moves S peer c a c') : Serves S c' := by
  cases h with
  | stop hs hq hm =>
    refine ⟨?_, ?_, by simp, by simp⟩
    · simp [hI.replies, replyTo_error hm]
    · simpa using hI.listening hs
  | ignore hs hq hm => exact hI.read hs hm rfl (by simp) (by simp [hs])
  | reply hs hq hm hup => exact hI.read hs hm rfl rfl (by simp [hs])
  | replyLost hs hq hm hup => exact hI.read hs hm rfl rfl fun _ => hup
  | serverEnd hs hup => exact { hI with listening := by simp, panicked := by simp }
  | lost => exact { hI with panicked := fun _ => rfl }
  | _ => exact { hI with }

theorem serves_of_reachable (h : Reachable (Conn.step S peer) {} c) : Serves S c := by
  refine h.inv (Serves S) ?_ fun _ _ _ hI hstep => hI.moves (Conn.step_moves hstep)
  exact ⟨rfl, by simp, by simp, by simp⟩

/-! ## One request -/

/-- How often the request of a runtime was sent, as far as it is not lost. -/
def requests (S : Service) (t : Target) (c : Conn) : Nat :=
  (c.read ++ c.toServer).count (request S.wire t.triple)

structure OnceInv (S : Service) (t : Target) (c : Conn) : Prop where
  read : ∀ m ∈ c.read, replyTo S m = none ∨ m = request S.wire t.triple
  once : requests S t c ≤ 1
  start : c.client = .start → requests S t c = 0

/-- A message that the server takes has been sent before. -/
theorem requests_next {m : Message} {rest : List Message} (hq : c.toServer = m :: rest)
    (hread : c'.read = c.read ++ [m]) (hrest : c'.toServer = rest) :
    requests S t c' = requests S t c := by
  simp [requests, hq, hread, hrest]

theorem request_ne_control {m : Message} (hm : isControl m = true) :
    m ≠ request S.wire t.triple := by
  rintro rfl
  cases hm

theorem OnceInv.next {m : Message} {rest : List Message} (hR : RuntimeInv S t c)
    (hI : OnceInv S t c) (hq : c.toServer = m :: rest) (hread : c'.read = c.read ++ [m])
    (hrest : c'.toServer = rest) (hclient : c'.client = c.client) : OnceInv S t c' where
  read := by
    intro x hx
    rw [hread] at hx
    rcases List.mem_append.1 hx with hx | hx
    · exact hI.read x hx
    · obtain rfl := List.mem_singleton.1 hx
      rcases (Expected.head hR.toServer hq).1 with h | h | ⟨⟨frame, rfl⟩, _⟩
      · exact .inr h
      · exact .inl (replyTo_ok (onMessage_control S h))
      · exact .inl rfl
  once := by
    rw [requests_next hq hread hrest]
    exact hI.once
  start h := by
    rw [requests_next hq hread hrest]
    exact hI.start (hclient ▸ h)

theorem OnceInv.push {m : Message} (hI : OnceInv S t c) (hm : m ≠ request S.wire t.triple)
    (hread : c'.read = c.read) (hpush : c'.toServer = c.toServer ++ [m])
    (hclient : c'.client = c.client) : OnceInv S t c' := by
  have hcount : requests S t c' = requests S t c := by
    simp only [requests, hread, hpush, List.count_append, List.count_singleton]
    simp [hm]
  refine ⟨hread ▸ hI.read, ?_, ?_⟩
  · rw [hcount]
    exact hI.once
  · intro h
    rw [hcount]
    exact hI.start (hclient ▸ h)

theorem OnceInv.moves (hR : RuntimeInv S t c) (hI : OnceInv S t c)
    (h : Conn.Moves S (.runtime t) c a c') : OnceInv S t c' := by
  cases h with
  | refused hc => exact { hI with start := by simp }
  | send hc hup =>
    refine { hI with once := ?_, start := by simp }
    have h0 := hI.start hc
    simp only [requests, List.count_append, List.count_singleton, beq_self_eq_true, if_true] at h0 ⊢
    omega
  | sendFails hc hup => exact { hI with start := by simp }
  | skip hc hq hm => exact { hI with }
  | finish hc hq hm => exact { hI with start := by simp }
  | wsRecv hc hup => exact { hI with start := by simp }
  | sessionClosed hc hup => exact { hI with start := by simp }
  | stop hs hq hm => exact hI.next hR hq rfl rfl rfl
  | ignore hs hq hm => exact hI.next hR hq rfl rfl rfl
  | reply hs hq hm hup => exact hI.next hR hq rfl rfl rfl
  | replyLost hs hq hm hup => exact hI.next hR hq rfl rfl rfl
  | serverEnd hs hup => exact { hI with }
  | controlServer hm => exact hI.push (request_ne_control hm) rfl rfl rfl
  | controlClient hm => exact { hI with }
  | closeServer => exact hI.push (by rintro ⟨⟩) rfl rfl rfl
  | closeClient => exact { hI with }
  | lost =>
    have hle : ∀ i, requests S t
        { c with up := false, toServer := c.toServer.take i } ≤ requests S t c := by
      intro i
      simp only [requests, List.count_append]
      exact Nat.add_le_add_left ((List.take_sublist i c.toServer).count_le _) _
    exact
      { read := hI.read
        once := le_trans (hle _) hI.once
        start := fun h => Nat.le_zero.1 ((hle _).trans (hI.start h).le) }

theorem onceInv_of_reachable (h : Reachable (Conn.step S (.runtime t)) {} c) : OnceInv S t c := by
  have hboth : RuntimeInv S t c ∧ OnceInv S t c := by
    refine h.inv (fun c => RuntimeInv S t c ∧ OnceInv S t c) ⟨runtimeInv_start, ?_⟩ ?_
    · exact ⟨by simp, by simp [requests], by simp [requests]⟩
    · rintro c c' a ⟨hR, hI⟩ hstep
      have hm := Conn.step_moves hstep
      exact ⟨hR.moves hm, hI.moves hR hm⟩
  exact hboth.2

theorem OnceInv.replies_le (hI : OnceInv S t c) (hs : Serves S c) : c.replies.length ≤ 1 := by
  have hle : ∀ q : List Message, (∀ m ∈ q, replyTo S m = none ∨ m = request S.wire t.triple) →
      (q.filterMap (replyTo S)).length ≤ q.count (request S.wire t.triple) := by
    intro q
    induction q with
    | nil => simp
    | cons m q ih =>
      intro hq
      have hrest := ih fun x hx => hq x (List.mem_cons_of_mem _ hx)
      rcases hq m (List.mem_cons_self ..) with hm | rfl
      · rw [List.filterMap_cons, hm]
        exact hrest.trans (List.count_le_count_cons ..)
      · rw [List.count_cons_self, List.filterMap_cons]
        split
        · omega
        · simpa using hrest
  have honce := hI.once
  simp only [requests, List.count_append] at honce
  have := hle c.read hI.read
  rw [hs.replies]
  omega

end Server

/-! ## Work -/

/-- An upper bound for the work that is left. -/
def Conn.size (c : Conn) : Nat :=
  (match c.client with
    | .start => 3
    | _ => 0) + 2 * c.toServer.length + c.toClient.length

section Work

variable {S : Service} {peer : Peer} {t : Target} {c c' : Conn} {a : Event} {n : Nat}

theorem Conn.size_lt (ha : a.IsWork) (h : Conn.step S peer c a = some c') : c'.size < c.size := by
  cases Conn.step_moves h with
  | send hc hup => simp [Conn.size, hc]; omega
  | sendFails hc hup => simp [Conn.size, hc]
  | skip hc hq hm => simp [Conn.size, hc, hq]
  | finish hc hq hm => simp [Conn.size, hc, hq]
  | take hq => simp only [Conn.size, hq, List.length_cons]; omega
  | stop hs hq hm => simp only [Conn.size, hq, List.length_cons]; omega
  | ignore hs hq hm => simp only [Conn.size, hq, List.length_cons]; omega
  | reply hs hq hm hup =>
    simp only [Conn.size, hq, List.length_cons, List.length_append, List.length_nil]
    omega
  | replyLost hs hq hm hup => simp only [Conn.size, hq, List.length_cons]; omega
  | _ => cases ha

/-- A connection on which nothing has gone wrong. -/
structure Healthy (S : Service) (t : Target) (c : Conn) : Prop where
  inv : RuntimeInv S t c
  up : c.up = true
  shut : c.shut = false
  connected : ∀ e, c.client ≠ .done (.error (.connect e))

theorem Healthy.work (hH : Healthy S t c) (ha : a.IsWork)
    (h : Conn.step S (.runtime t) c a = some c') : Healthy S t c' := by
  have hm := Conn.step_moves h
  have hinv := hH.inv.moves hm
  cases hm with
  | send hc hup => exact ⟨hinv, hH.up, hH.shut, by simp⟩
  | sendFails hc hup => exact ⟨hinv, hH.up, hH.shut, by simp⟩
  | skip hc hq hm => exact ⟨hinv, hH.up, hH.shut, hH.connected⟩
  | @finish _ _ m rest r hc hq hm =>
    refine ⟨hinv, hH.up, hH.shut, ?_⟩
    rintro e ⟨⟩
    -- the loop does not return this error
    simp only [onNext] at hm
    split at hm <;> simp at hm
  | stop hs hq hm => exact ⟨hinv, hH.up, hH.shut, hH.connected⟩
  | ignore hs hq hm => exact ⟨hinv, hH.up, hH.shut, hH.connected⟩
  | reply hs hq hm hup => exact ⟨hinv, hH.up, hH.shut, hH.connected⟩
  | replyLost hs hq hm hup => exact ⟨hinv, hH.up, hH.shut, hH.connected⟩
  | _ => cases ha

theorem Healthy.steps (hH : Healthy S t c)
    (h : Steps (Conn.step S (.runtime t)) Event.IsWork n c c') : Healthy S t c' := by
  induction h with
  | refl => exact hH
  | tail _ ha hst ih => exact (ih hH).work ha hst

/-- When both ends are out of work, the runtime has its answer. -/
theorem Healthy.answered (hH : Healthy S t c)
    (hlast : ∀ a : Event, a.IsWork → Conn.step S (.runtime t) c a = none) :
    ∃ r, c.client = .done r ∧ AnsweredBy (answer S.cDat t.triple) r := by
  cases hc : c.client with
  | start =>
    have hsend := hlast (.clientSend ⟨""⟩) trivial
    simp [Conn.step, hc, hH.up] at hsend
  | waiting =>
    rcases hH.inv.token hH.up hH.shut hc with htok | htok
    · have hread := hlast (.serverNext true) trivial
      obtain ⟨m, rest, hq⟩ := List.exists_cons_of_ne_nil (List.ne_nil_of_mem htok)
      simp [Conn.step, hH.inv.listening hH.up hH.shut, hq] at hread
    · have hnext := hlast .clientNext trivial
      obtain ⟨m, rest, hq⟩ := List.exists_cons_of_ne_nil (List.ne_nil_of_mem htok)
      simp [Conn.step, Conn.canRead, hc, hq] at hnext
  | done r =>
    refine ⟨r, rfl, ?_⟩
    have hup : c.up ≠ false := by simp [hH.up]
    have hshut : c.shut ≠ true := by simp [hH.shut]
    cases hH.inv.done r hc with
    | answered h => exact h
    | connect e => exact absurd hc (hH.connected e)
    | sendRequest h => exact absurd h hup
    | wsRecv h => exact absurd h hup
    | sessionClosed h => exact absurd h hup
    | closed h => exact absurd h hshut

end Work

/-! ## All sessions -/

/-- A server for one target. -/
def loopService : Service where
  wire := leb128
  cDat := AList.insert "x86_64-unknown-linux-gnu" (.chain loopChain) ∅
  fits := by
    intro target m hm
    rw [HashMap.lookup_insert_ite] at hm
    split at hm
    · obtain rfl := Option.some.inj hm
      exact loopChain_fits
    · cases hm

def x86 : Target where
  triple := "x86_64-unknown-linux-gnu"
  fits := by unfold StringFits; decide
  errorFits := by unfold StringFits; decide

/-- A runtime and a stranger. -/
def twoPeers : Bool → Peer
  | true => .runtime x86
  | false => .stranger

/-- The stranger has said something that the server does not understand. -/
theorem twoPeers_stranger : ∃ s, Sessions loopService twoPeers s ∧ s true = {} ∧
    (s false).toServer = [.text "hello"] :=
  ⟨_, Interleaved.step (i := false) (a := .inject (.text "hello")) .start rfl, rfl, rfl⟩

section Sessions

variable {ι : Type} [DecidableEq ι] {S : Service} {peer : ι → Peer} {s : ι → Conn} {i : ι}
  {t : Target}

theorem Sessions.runtime (hs : Sessions S peer s) (hi : peer i = .runtime t) :
    Reachable (Conn.step S (.runtime t)) {} (s i) := by
  have h := Interleaved.component hs i
  simp only [hi] at h
  exact h

/-- A runtime that starts on a good connection can get its answer. -/
theorem exists_answered (hs : Sessions S peer s) (hi : peer i = .runtime t) (hstart : s i = {}) :
    ∃ s' r, Sessions S peer s' ∧ (s' i).client = .done r ∧
      AnsweredBy (answer S.cDat t.triple) r := by
  obtain ⟨n, c, hwork, hlast⟩ : ∃ n c, Steps (Conn.step S (.runtime t)) Event.IsWork n {} c ∧
      ∀ a : Event, a.IsWork → Conn.step S (.runtime t) c a = none :=
    Steps.exists_last Conn.size (fun _ _ _ ha h => Conn.size_lt ha h) {}
  have hH : Healthy S t {} := ⟨runtimeInv_start, rfl, rfl, by simp⟩
  obtain ⟨r, hr, ha⟩ := (hH.steps hwork).answered hlast
  have hwork' : Steps (Conn.step S (peer i)) Event.IsWork n {} c := by rwa [hi]
  refine ⟨Function.update s i c, r, Interleaved.steps hwork' hstart hs, ?_, ha⟩
  rw [Function.update_self]
  exact hr

/-- **Every runtime gets its own answer.** Whatever the other peers of the server do, and in
whatever order: a runtime that ends has the chain of its own target, or the error that names it,
unless its connection was lost or closed. It never gets a message that it cannot read. -/
theorem session_answers (hs : Sessions S peer s) (hi : peer i = .runtime t)
    {r : Except ChainGetError Protocol.Chain} (hr : (s i).client = .done r) :
    EndsWith (s i).up (s i).shut (answer S.cDat t.triple) r :=
  (runtimeInv_of_reachable (hs.runtime hi)).done r hr

/-- The answer of the server for its target is the chain. -/
theorem answeredBy_loopChain {r : Except ChainGetError Protocol.Chain}
    (h : AnsweredBy (answer loopService.cDat x86.triple) r) :
    ∃ c, r = .ok c ∧ SameChain loopChain c := by
  have hanswer : answer loopService.cDat x86.triple = .chain loopChain := rfl
  rw [hanswer] at h
  cases h with
  | chain h =>
    cases h with
    | chain h => exact ⟨_, rfl, h⟩
  | error h => cases h

theorem session_answers_loopChain : ∃ s c, Sessions loopService twoPeers s ∧
    (s true).client = .done (.ok c) ∧
    EndsWith (s true).up (s true).shut (.chain loopChain) (.ok c) := by
  obtain ⟨s, hs, hstart, _⟩ := twoPeers_stranger
  obtain ⟨s', r, hs', hr, ha⟩ := exists_answered hs (show twoPeers true = .runtime x86 from rfl) hstart
  obtain ⟨c, rfl, _⟩ := answeredBy_loopChain ha
  exact ⟨s', c, hs', hr, session_answers hs' (show twoPeers true = .runtime x86 from rfl) hr⟩

/-- A request on a good connection gets its reply. -/
theorem Conn.step_request {peer : Peer} {c : Conn} {rest : List Message}
    (hserver : c.server = .listening) (hq : c.toServer = request S.wire t.triple :: rest)
    (hup : c.up = true) (sent : Bool) :
    Conn.step S peer c (.serverNext sent) = some
      { c with
        toServer := rest
        toClient := c.toClient ++ [replyFor S t]
        read := c.read ++ [request S.wire t.triple]
        replies := c.replies ++ [replyFor S t] } := by
  simp only [Conn.step, hserver, hq, Conn.afterRead, onMessage_request, hup, if_true]

/-- **The server replies in order.** On every connection, whoever is at the other end, each request
that was read has its one reply, and nothing else was sent; a runtime gets one reply at most. -/
theorem sessions_serve (hs : Sessions S peer s) (i : ι) :
    Serves S (s i) ∧ ∀ t, peer i = .runtime t → (s i).replies.length ≤ 1 := by
  have hserves := serves_of_reachable (Interleaved.component hs i)
  exact ⟨hserves, fun t hi => (onceInv_of_reachable (hs.runtime hi)).replies_le hserves⟩

/-- The stranger has its reply as the runtime has; its text ends the loop of the server. -/
theorem sessions_serve_stranger : ∃ s, Sessions loopService twoPeers s ∧
    (s false).read = [request leb128 x86.triple, .text "hello"] ∧
    (s false).replies = [replyFor loopService x86] ∧ (s false).server = .finished ∧
    Serves loopService (s false) ∧ (s true).replies = [replyFor loopService x86] ∧
    Serves loopService (s true) ∧ (s true).replies.length ≤ 1 := by
  have hsent : Sessions loopService twoPeers _ :=
    .step (i := true) (a := .clientSend ⟨""⟩) .start rfl
  have hanswered : Sessions loopService twoPeers _ :=
    .step (i := true) (a := .serverNext true) hsent (Conn.step_request (t := x86) rfl rfl rfl true)
  have hasked : Sessions loopService twoPeers _ :=
    .step (i := false) (a := .inject (request leb128 x86.triple)) hanswered rfl
  have hread : Sessions loopService twoPeers _ :=
    .step (i := false) (a := .serverNext true) hasked
      (Conn.step_request (t := x86) rfl rfl rfl true)
  have hsaid : Sessions loopService twoPeers _ :=
    .step (i := false) (a := .inject (.text "hello")) hread rfl
  have hclosed : Sessions loopService twoPeers _ :=
    .step (i := false) (a := .serverNext true) hsaid rfl
  obtain ⟨hserves, hle⟩ := sessions_serve hclosed true
  exact ⟨_, hclosed, rfl, rfl, rfl, (sessions_serve hclosed false).1, rfl, hserves, hle x86 rfl⟩

/-- **Sessions finish.** A connection that is not refused, lost or closed needs only so much work of
its two ends, and once there is nothing left to do the runtime has its answer. -/
theorem session_finishes (hs : Sessions S peer s) (hi : peer i = .runtime t)
    (hup : (s i).up = true) (hshut : (s i).shut = false)
    (hconn : ∀ e, (s i).client ≠ .done (.error (.connect e))) {n : Nat} {c : Conn}
    (hwork : Steps (Conn.step S (peer i)) Event.IsWork n (s i) c) :
    n ≤ (s i).size ∧ ((∀ a : Event, a.IsWork → Conn.step S (peer i) c a = none) →
      ∃ r, c.client = .done r ∧ AnsweredBy (answer S.cDat t.triple) r) := by
  have hH : Healthy S t (s i) :=
    ⟨runtimeInv_of_reachable (hs.runtime hi), hup, hshut, hconn⟩
  refine ⟨?_, fun hlast => ?_⟩
  · have := hwork.length_le Conn.size fun _ _ _ ha h => Conn.size_lt ha h
    omega
  · rw [hi] at hwork hlast
    exact (hH.steps hwork).answered hlast

theorem session_finishes_loopChain : ∃ s n c r, Sessions loopService twoPeers s ∧
    Steps (Conn.step loopService (twoPeers true)) Event.IsWork n (s true) c ∧
    c.client = .done r ∧ AnsweredBy (.chain loopChain) r := by
  obtain ⟨s, hs, hstart, _⟩ := twoPeers_stranger
  have hconn : ∀ e, (s true).client ≠ .done (.error (.connect e)) := by simp [hstart]
  obtain ⟨n, c, hwork, hlast⟩ : ∃ n c,
      Steps (Conn.step loopService (twoPeers true)) Event.IsWork n (s true) c ∧
        ∀ a : Event, a.IsWork → Conn.step loopService (twoPeers true) c a = none :=
    Steps.exists_last Conn.size (fun _ _ _ ha h => Conn.size_lt ha h) (s true)
  obtain ⟨r, hr, ha⟩ := (session_finishes hs (show twoPeers true = .runtime x86 from rfl)
    (by rw [hstart]) (by rw [hstart]) hconn hwork).2 hlast
  exact ⟨s, n, c, r, hs, hwork, hr, ha⟩

end Sessions

end Galette.Pipeline
