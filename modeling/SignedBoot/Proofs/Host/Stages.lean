import SignedBoot.Proofs.Exchange.Path
import SignedBoot.Proofs.Host.UpdateRequests

/-!
# The host byte by byte

An update as the host sees it goes through stages, and every byte written, every byte read and every
wait that runs out takes it from one stage to the next. `Stage.Step` says how. Whatever the line
does, an update that is run on it goes through these stages, writes the bytes of its steps and reads
the bytes of its steps, and ends in the stage that says how it ended, unless the line itself fails.

The end of a wait is not tied to what is on its way: a byte that has been sent may not have arrived.
-/

namespace SignedBoot.Host

open Layout Wire

/-! ## Stages -/

/-- Where the host is. Each stage keeps the requests that are still to be sent. -/
inductive Stage where
  /-- Sending the start sequence, of which `left` is still to go. -/
  | knocking (left : Bytes) (attempts : Nat) (rest : List Request)
  /-- Waiting for the answer to it; what has been received so far, last byte first. -/
  | expecting (received : Bytes) (attempts : Nat) (rest : List Request)
  /-- Sending a request, of whose frame `left` is still to go. -/
  | sending (left : Bytes) (rest : List Request)
  /-- Waiting for the answer to the last request. -/
  | awaiting (rest : List Request)
  | done (result : Except Failure Unit)
  deriving DecidableEq, Repr

/-- What the host does in one step. -/
inductive Act where
  /-- Writes a byte of the start sequence. -/
  | knocks (b : UInt8)
  /-- Writes a byte of a request. -/
  | sends (b : UInt8)
  /-- Has written everything, and turns to the answer. -/
  | settles
  /-- Reads a byte. -/
  | hears (b : UInt8)
  /-- Gives up waiting for one. -/
  | timesOut
  deriving DecidableEq, Repr

namespace Act

/-- The byte that a step puts on the line. -/
def written : Act → Bytes
  | knocks b => [b]
  | sends b => [b]
  | _ => []

/-- The byte that a step takes from the line. -/
def heard : Act → Bytes
  | hears b => [b]
  | _ => []

end Act

namespace Stage

/-- Ahead of the given requests. -/
def before : List Request → Stage
  | [] => done (.ok ())
  | r :: rest =>
    match r.encode? with
    | none => done (.error .invalidPayload)
    | some frame => sending frame rest

/-- Ahead of the start sequence, if there is an attempt left. -/
def knock (rest : List Request) : (attempts : Nat) → Stage
  | 0 => done (.error .handshakeFailed)
  | attempts + 1 => knocking handshakeRequest attempts rest

/-- One step of the host. -/
inductive Step : Stage → Act → Stage → Prop where
  | knocks {b : UInt8} {left : Bytes} {attempts : Nat} {rest : List Request} :
    Step (knocking (b :: left) attempts rest) (.knocks b) (knocking left attempts rest)
  | knocked {attempts : Nat} {rest : List Request} :
    Step (knocking [] attempts rest) .settles (expecting [] attempts rest)
  | hearsAnswer {b : UInt8} {received : Bytes} {attempts : Nat} {rest : List Request}
    (h : endsWith handshakeResponse (b :: received) = true) :
    Step (expecting received attempts rest) (.hears b) (before rest)
  | hearsMore {b : UInt8} {received : Bytes} {attempts : Nat} {rest : List Request}
    (h : endsWith handshakeResponse (b :: received) = false) :
    Step (expecting received attempts rest) (.hears b) (expecting (b :: received) attempts rest)
  | knocksAgain {received : Bytes} {attempts : Nat} {rest : List Request} :
    Step (expecting received attempts rest) .timesOut (knock rest attempts)
  | sends {b : UInt8} {left : Bytes} {rest : List Request} :
    Step (sending (b :: left) rest) (.sends b) (sending left rest)
  | sent {rest : List Request} (h : rest ≠ []) : Step (sending [] rest) .settles (awaiting rest)
  | finishes : Step (sending [] []) .settles (done (.ok ()))
  | hearsNoise {b : UInt8} {rest : List Request} (h : reply? b = none) :
    Step (awaiting rest) (.hears b) (awaiting rest)
  | hearsAck {b : UInt8} {rest : List Request} (h : reply? b = some (.ok ())) :
    Step (awaiting rest) (.hears b) (before rest)
  | hearsRefusal {b : UInt8} {rest : List Request} {e : Failure} (h : reply? b = some (.error e)) :
    Step (awaiting rest) (.hears b) (done (.error e))
  | givesUp {rest : List Request} : Step (awaiting rest) .timesOut (done (.error .noAck))

theorem before_cons {r : Request} (h : r.Fits) (rest : List Request) :
    before (r :: rest) = sending r.frame rest := by
  rw [before, Request.encode?_eq_of_fits h]

end Stage

/-! ## What is left of an update -/

/-- Writes a byte of the start sequence, and pauses. -/
def knockWith (b : UInt8) : Attempt Line Failure Unit := do
  transmit [b]
  Attempt.update (Line.sleep byteGap)

/-- Behind a request: sends each further request once the one before it has been acknowledged. -/
def sendOnReply : List Request → Attempt Line Failure Unit
  | [] => pure ()
  | r :: rest => do
    awaitReply
    send r
    sendOnReply rest

/-- Ahead of some requests: sends them one after the other. -/
def sendInTurn : List Request → Attempt Line Failure Unit
  | [] => pure ()
  | r :: rest => do
    send r
    sendOnReply rest

/-- Behind a start sequence: listens for the answer, knocks again if there is none, and sends the
requests. -/
def sendOnAnswer (received : Bytes) (attempts : Nat) (rest : List Request) :
    Attempt Line Failure Unit := do
  if ← (⟨expectAfter handshakeResponse received⟩ : Attempt Line Failure Bool) then sendInTurn rest
  else
    handshake attempts
    sendInTurn rest

/-- What is left of an update in a stage of it. -/
def Stage.remains : Stage → Attempt Line Failure Unit
  | knocking left attempts rest => do
    left.forM knockWith
    sendOnAnswer [] attempts rest
  | expecting received attempts rest => sendOnAnswer received attempts rest
  | sending left rest => do
    transmit left
    sendOnReply rest
  | awaiting rest => do
    awaitReply
    sendInTurn rest
  | done result => .ofExcept result

theorem sendOnReply_of_ne_nil {rest : List Request} (h : rest ≠ []) :
    sendOnReply rest = awaitReply >>= fun _ => sendInTurn rest := by
  cases rest with
  | nil => exact absurd rfl h
  | cons r rest => rfl

theorem sendInTurn_concat (requests : List Request) (last : Request) :
    sendInTurn (requests ++ [last]) = requests.forM request >>= fun _ => send last := by
  induction requests with
  | nil => exact bind_pure (send last)
  | cons r rest ih =>
    have hrest : sendOnReply (rest ++ [last]) = awaitReply >>= fun _ => sendInTurn (rest ++ [last]) :=
      sendOnReply_of_ne_nil (List.append_ne_nil_of_right_ne_nil rest (List.cons_ne_nil last []))
    have hcons : (r :: rest).forM request = request r >>= fun _ => rest.forM request := rfl
    rw [hcons, bind_assoc, ← ih, List.cons_append, sendInTurn, hrest, request, bind_assoc]

/-- An update sends its requests one after the other. -/
theorem flash_eq_sendInTurn (image : Image) (signature : Vector UInt8 signatureLen) :
    flash image signature = sendInTurn (updateRequests image signature) := by
  rw [flash_eq]
  exact (sendInTurn_concat _ _).symm

/-! ## Runs on a line -/

namespace Line

/-- The bytes that will arrive. -/
def arriving (l : Line) : Bytes :=
  l.incoming.filterMap fun
    | .byte b => some b
    | _ => none

end Line

/-- The line goes from one state to another while the host goes from one stage to another: what the
steps write is sent, what they read arrives. -/
def Goes (s : Stage) (l : Line) (t : Stage) (l' : Line) : Prop :=
  ∃ acts, Path Stage.Step s acts t ∧
    l'.sent.toList = l.sent.toList ++ acts.flatMap Act.written ∧
    l.arriving = acts.flatMap Act.heard ++ l'.arriving

namespace Goes

variable {r s t : Stage} {l l' l'' : Line}

theorem rest (hsent : l'.sent = l.sent) (harriving : l'.arriving = l.arriving) : Goes s l s l' :=
  ⟨[], .nil, by simp [hsent], by simp [harriving]⟩

theorem refl (s : Stage) (l : Line) : Goes s l s l :=
  rest rfl rfl

theorem trans (hfirst : Goes r l s l') (hsecond : Goes s l' t l'') : Goes r l t l'' := by
  obtain ⟨first, hpath, hsent, harriving⟩ := hfirst
  obtain ⟨second, hpath', hsent', harriving'⟩ := hsecond
  refine ⟨first ++ second, hpath.append hpath', ?_, ?_⟩
  · rw [hsent', hsent, List.flatMap_append, List.append_assoc]
  · rw [harriving, harriving', List.flatMap_append, List.append_assoc]

end Goes

/-- The stage in which an operation leaves the host is the one that its result leads to; if it failed
the host has failed too, or else it was the line. -/
def Stage.Matches {α : Type} (t : Stage) (next : α → Stage) : Except Failure α → Prop
  | .ok a => t = next a
  | .error e => t = done (.error e) ∨ ∃ k, e = .link k

/-- Run on any line, an operation takes the host from a stage to the one that its result leads to. -/
def Realizes {α : Type} (s : Stage) (x : Attempt Line Failure α) (next : α → Stage) : Prop :=
  ∀ l, ∃ t, Goes s l t (x.run l).2 ∧ t.Matches next (x.run l).1

section
variable {α β : Type} {s : Stage} {next : α → Stage} {after : β → Stage}

theorem Realizes.pure {a : α} (h : s = next a) :
    Realizes s (Pure.pure a : Attempt Line Failure α) next :=
  fun l => ⟨s, .refl s l, h⟩

theorem Realizes.fail {e : Failure} (h : s = .done (.error e)) :
    Realizes s (.fail e : Attempt Line Failure α) next :=
  fun l => ⟨s, .refl s l, Or.inl h⟩

theorem Realizes.bind {x : Attempt Line Failure α} {f : α → Attempt Line Failure β}
    (hx : Realizes s x next) (hf : ∀ a, Realizes (next a) (f a) after) :
    Realizes s (x >>= f) after := by
  intro l
  obtain ⟨t, hgoes, hresult⟩ := hx l
  rcases hrun : x.run l with ⟨e | a, l'⟩
  · rw [hrun] at hgoes hresult
    rw [Attempt.run_bind_error hrun]
    exact ⟨t, hgoes, hresult⟩
  · rw [hrun] at hgoes hresult
    obtain rfl := hresult
    obtain ⟨u, hrest, hlast⟩ := hf a l'
    rw [Attempt.run_bind_ok hrun]
    exact ⟨u, hgoes.trans hrest, hlast⟩

/-- A host that has written everything turns to what comes then before it does it. -/
theorem Realizes.settling {t : Stage} {x : Attempt Line Failure α} (hstep : Stage.Step s .settles t)
    (h : Realizes t x next) : Realizes s x next := by
  intro l
  obtain ⟨u, hgoes, hresult⟩ := h l
  have hturn : Goes s l t l := ⟨[.settles], .single hstep, (List.append_nil _).symm, rfl⟩
  exact ⟨u, hturn.trans hgoes, hresult⟩

/-- A run of operations, one for each item, goes through the stages ahead of each item. -/
theorem Realizes.forM {f : α → Attempt Line Failure Unit} (stage : List α → Stage)
    (h : ∀ a rest, Realizes (stage (a :: rest)) (f a) fun _ => stage rest) (items : List α) :
    Realizes (stage items) (items.forM f) fun _ => stage [] := by
  induction items with
  | nil => exact .pure rfl
  | cons a rest ih => exact (h a rest).bind fun _ => ih

end

/-! ## Writing -/

section
variable (stage : Bytes → Stage) (act : UInt8 → Act)
  (hstep : ∀ b left, Stage.Step (stage (b :: left)) (act b) (stage left))
  (hwritten : ∀ b, (act b).written = [b]) (hheard : ∀ b, (act b).heard = [])
include hstep hwritten hheard

/-- Sending some bytes in one write takes one step for each. -/
theorem Goes.writes (bs left : Bytes) {l l' : Line} (hsent : l'.sent.toList = l.sent.toList ++ bs)
    (harriving : l'.arriving = l.arriving) : Goes (stage (bs ++ left)) l (stage left) l' := by
  have hpath : Path Stage.Step (stage (bs ++ left)) (bs.map act) (stage left) := by
    clear hsent
    induction bs with
    | nil => exact .nil
    | cons b bs ih => exact .cons (hstep b (bs ++ left)) ih
  refine ⟨bs.map act, hpath, ?_, ?_⟩
  · simp [hsent, List.flatMap_map, hwritten]
  · simp [harriving, List.flatMap_map, hheard]

theorem Goes.push (bs left : Bytes) (l : Line) :
    ∃ t, Goes (stage (bs ++ left)) l t (Line.push bs l).2 ∧
      ((Line.push bs l).1 = .ok () → t = stage left) := by
  fun_induction Line.push bs l with
  | case1 l => exact ⟨stage left, .refl _ l, fun _ => rfl⟩
  | case2 b bs l htake => exact ⟨stage (b :: bs ++ left), .refl _ l, fun h => by cases h⟩
  | case3 b bs l first more htake ih =>
    obtain ⟨t, hgoes, hok⟩ := ih
    have hprefix : first :: more <+: b :: bs := by
      rw [← htake]
      exact (Quota.take_prefix _ _).trans (Quota.take_prefix _ _)
    obtain ⟨rest, hrest⟩ := hprefix
    rw [List.cons_append, List.cons.injEq] at hrest
    obtain ⟨rfl, rfl⟩ := hrest
    rw [List.drop_left] at hgoes hok ⊢
    have hfirst : Goes (stage ((first :: more) ++ (rest ++ left))) l (stage (rest ++ left))
        { l with
          sent := l.sent ++ first :: more
          txRoom := l.txRoom.use (more.length + 1) } :=
      .writes stage act hstep hwritten hheard (first :: more) (rest ++ left) (by simp) rfl
    refine ⟨t, ?_, hok⟩
    have hall : first :: (more ++ rest) ++ left = first :: more ++ (rest ++ left) := by
      rw [List.cons_append, List.cons_append, List.append_assoc]
    rw [hall]
    exact hfirst.trans hgoes

end

theorem run_onLine {α : Type} (action : Attempt Line IoKind α) (l : Line) :
    (onLine action).run l = ((action.run l).1.mapError fun k => .link (.kind k), (action.run l).2) := by
  simp only [onLine, Attempt.mapError]
  rcases action.run l with ⟨k | a, l'⟩ <;> rfl

section
variable (stage : Bytes → Stage) (act : UInt8 → Act)
  (hstep : ∀ b left, Stage.Step (stage (b :: left)) (act b) (stage left))
  (hwritten : ∀ b, (act b).written = [b]) (hheard : ∀ b, (act b).heard = [])
include hstep hwritten hheard

theorem realizes_transmit (bs left : Bytes) :
    Realizes (stage (bs ++ left)) (transmit bs) fun _ => stage left := by
  intro l
  obtain ⟨t, hgoes, hok⟩ := Goes.push stage act hstep hwritten hheard bs left l
  unfold transmit
  rw [run_onLine]
  rcases hpush : Line.push bs l with ⟨k | ⟨⟩, l'⟩
  · have hrun : (Line.writeAll bs >>= fun _ => Line.flush).run l = (.error k, l') :=
      Attempt.run_bind_error hpush
    rw [hpush] at hgoes
    rw [hrun]
    exact ⟨t, hgoes, Or.inr ⟨_, rfl⟩⟩
  · have hrun : (Line.writeAll bs >>= fun _ => Line.flush).run l = Line.flush.run l' :=
      Attempt.run_bind_ok hpush
    rw [hpush] at hgoes hok
    obtain rfl := hok rfl
    rw [hrun]
    simp only [Line.flush]
    rcases l'.flushRoom.spend? with _ | room
    · exact ⟨stage left, hgoes, Or.inr ⟨_, rfl⟩⟩
    · exact ⟨stage left, hgoes.trans (.rest rfl rfl), rfl⟩

end

theorem realizes_knocks (left : Bytes) (attempts : Nat) (rest : List Request) :
    Realizes (.knocking left attempts rest) (left.forM knockWith) fun _ => .knocking [] attempts rest := by
  refine Realizes.forM (fun left => .knocking left attempts rest) ?_ left
  intro b left
  have hbyte : Realizes (.knocking ([b] ++ left) attempts rest) (transmit [b])
      fun _ => .knocking left attempts rest :=
    realizes_transmit (fun left => .knocking left attempts rest) .knocks (fun _ _ => .knocks)
      (fun _ => rfl) (fun _ => rfl) [b] left
  refine hbyte.bind fun _ l => ?_
  exact ⟨_, .rest rfl rfl, rfl⟩

/-! ## Reading -/

/-- A read takes nothing but what it hands out from what will arrive. -/
theorem Line.readBy_spec (deadline : Nat) (l : Line) :
    (readBy deadline l).2.sent = l.sent ∧
      match (readBy deadline l).1 with
      | .ok (some b) => l.arriving = b :: (readBy deadline l).2.arriving
      | _ => (readBy deadline l).2.arriving = l.arriving := by
  fun_induction readBy deadline l with
  | case1 l h => exact ⟨rfl, rfl⟩
  | case2 l b rest h => simp [arriving, h]
  | case3 l rest h => simp [arriving, h]
  | case4 l k rest h => simp [arriving, h]
  | case5 l millis rest h stop hstop ih => simpa [arriving, h] using ih
  | case6 l millis rest h stop hstop => simp [arriving, h]

section
variable {timeout : Nat} {l l' : Line} {s t : Stage}

theorem Goes.hears {b : UInt8} (hread : (Line.read timeout).run l = (.ok (some b), l'))
    (hstep : Stage.Step s (.hears b) t) : Goes s l t l' := by
  have hspec := Line.readBy_spec (l.now + timeout) l
  have hrun : Line.readBy (l.now + timeout) l = (.ok (some b), l') := hread
  rw [hrun] at hspec
  obtain ⟨hsent, harriving⟩ := hspec
  refine ⟨[.hears b], .single hstep, ?_, harriving⟩
  exact (congrArg Array.toList hsent).trans (List.append_nil _).symm

theorem Goes.timesOut (hread : (Line.read timeout).run l = (.ok none, l'))
    (hstep : Stage.Step s .timesOut t) : Goes s l t l' := by
  have hspec := Line.readBy_spec (l.now + timeout) l
  have hrun : Line.readBy (l.now + timeout) l = (.ok none, l') := hread
  rw [hrun] at hspec
  obtain ⟨hsent, harriving⟩ := hspec
  refine ⟨[.timesOut], .single hstep, ?_, harriving.symm⟩
  exact (congrArg Array.toList hsent).trans (List.append_nil _).symm

theorem Goes.fails {k : IoKind} (hread : (Line.read timeout).run l = (.error k, l')) (s : Stage) :
    Goes s l s l' := by
  have hspec := Line.readBy_spec (l.now + timeout) l
  have hrun : Line.readBy (l.now + timeout) l = (.error k, l') := hread
  rw [hrun] at hspec
  obtain ⟨hsent, harriving⟩ := hspec
  exact .rest hsent harriving

end

/-- Where the host stands after it waited for the answer to the start sequence. -/
def Stage.answered (rest : List Request) (attempts : Nat) (heard : Bool) : Stage :=
  if heard then before rest else knock rest attempts

theorem goes_expectAfter (rest : List Request) (attempts : Nat) (received : Bytes) (l : Line) :
    ∃ t, Goes (.expecting received attempts rest) l t (expectAfter handshakeResponse received l).2 ∧
      t.Matches (Stage.answered rest attempts) (expectAfter handshakeResponse received l).1 := by
  fun_induction expectAfter handshakeResponse received l with
  | case1 received l k l' hread => exact ⟨_, .fails hread _, Or.inr ⟨_, rfl⟩⟩
  | case2 received l l' hread => exact ⟨_, .timesOut hread .knocksAgain, rfl⟩
  | case3 received l b l' hread hends => exact ⟨_, .hears hread (.hearsAnswer hends), rfl⟩
  | case4 received l b l' hread hends ih =>
    obtain ⟨t, hrest, hmatches⟩ := ih
    have hmore : endsWith handshakeResponse (b :: received) = false := Bool.eq_false_iff.2 hends
    exact ⟨t, (Goes.hears hread (.hearsMore hmore)).trans hrest, hmatches⟩

/-- A handshake leaves the host ahead of its requests, or out of attempts. -/
theorem realizes_handshake (rest : List Request) (attempts : Nat) :
    Realizes (.knock rest attempts) (handshake attempts) fun _ => .before rest := by
  induction attempts with
  | zero => exact .fail rfl
  | succ attempts ih =>
    refine (realizes_knocks handshakeRequest attempts rest).bind fun _ => ?_
    have hexpect : Realizes (.expecting [] attempts rest) (expect handshakeResponse)
        (Stage.answered rest attempts) := goes_expectAfter rest attempts []
    refine (hexpect.settling .knocked).bind fun heard => ?_
    cases heard with
    | true => exact .pure rfl
    | false => exact ih

/-! ## Requests -/

theorem realizes_sends (left : Bytes) (rest : List Request) :
    Realizes (.sending left rest) (transmit left) fun _ => .sending [] rest := by
  have hall : Realizes (.sending (left ++ []) rest) (transmit left) fun _ => .sending [] rest :=
    realizes_transmit (fun left => .sending left rest) .sends (fun _ _ => .sends) (fun _ => rfl)
      (fun _ => rfl) left []
  rw [List.append_nil] at hall
  exact hall

theorem realizes_send (r : Request) (rest : List Request) :
    Realizes (.before (r :: rest)) (send r) fun _ => .sending [] rest := by
  unfold send
  rw [Stage.before]
  rcases r.encode? with _ | frame
  · exact .fail rfl
  · exact realizes_sends frame rest

theorem goes_replyFrom (rest : List Request) (l : Line) :
    ∃ t, Goes (.awaiting rest) l t (replyFrom l).2 ∧
      t.Matches (fun _ => .before rest) (replyFrom l).1 := by
  fun_induction replyFrom l with
  | case1 l k l' hread => exact ⟨_, .fails hread _, Or.inr ⟨_, rfl⟩⟩
  | case2 l l' hread => exact ⟨_, .timesOut hread .givesUp, Or.inl rfl⟩
  | case3 l b l' hread answer hreply =>
    rcases answer with e | ⟨⟩
    · exact ⟨_, .hears hread (.hearsRefusal hreply), Or.inl rfl⟩
    · exact ⟨_, .hears hread (.hearsAck hreply), rfl⟩
  | case4 l b l' hread hreply ih =>
    obtain ⟨t, hrest, hmatches⟩ := ih
    exact ⟨t, (Goes.hears hread (.hearsNoise hreply)).trans hrest, hmatches⟩

/-- Once a request has been sent, sending those behind it takes the host to the end. -/
theorem realizes_sendOnReply (rest : List Request) :
    Realizes (.sending [] rest) (sendOnReply rest) fun _ => .done (.ok ()) := by
  induction rest with
  | nil => exact .settling .finishes (.pure rfl)
  | cons r rest ih =>
    have hreply : Realizes (.awaiting (r :: rest)) awaitReply fun _ => .before (r :: rest) :=
      goes_replyFrom (r :: rest)
    refine (hreply.settling (.sent (List.cons_ne_nil r rest))).bind fun _ => ?_
    exact (realizes_send r rest).bind fun _ => ih

theorem realizes_sendInTurn (requests : List Request) :
    Realizes (.before requests) (sendInTurn requests) fun _ => .done (.ok ()) := by
  cases requests with
  | nil => exact .pure rfl
  | cons r rest => exact (realizes_send r rest).bind fun _ => realizes_sendOnReply rest

/-- Sending an image, its size, its signature and the word to stop takes the host from ahead of these
requests to the end. -/
theorem realizes_flash (image : Image) (signature : Vector UInt8 signatureLen) :
    Realizes (.before (updateRequests image signature)) (flash image signature)
      fun _ => .done (.ok ()) := by
  rw [flash_eq_sendInTurn]
  exact realizes_sendInTurn _

/-- A whole update of the host goes through the stages from the first knock to the end. -/
theorem realizes_update (attempts : Nat) (image : Image) (signature : Vector UInt8 signatureLen) :
    Realizes (.knock (updateRequests image signature) attempts)
      (handshake attempts >>= fun _ => flash image signature) fun _ => .done (.ok ()) :=
  (realizes_handshake _ attempts).bind fun _ => realizes_flash image signature

/-- In any stage, what is left of an update takes the host from there to the end. -/
theorem Stage.realizes_remains (s : Stage) : Realizes s s.remains fun _ => .done (.ok ()) := by
  have hanswer (received : Bytes) (attempts : Nat) (rest : List Request) :
      Realizes (.expecting received attempts rest) (sendOnAnswer received attempts rest)
        fun _ => .done (.ok ()) := by
    have hexpect : Realizes (.expecting received attempts rest)
        ⟨expectAfter handshakeResponse received⟩ (Stage.answered rest attempts) :=
      goes_expectAfter rest attempts received
    refine hexpect.bind fun heard => ?_
    cases heard with
    | true => exact realizes_sendInTurn rest
    | false => exact (realizes_handshake rest attempts).bind fun _ => realizes_sendInTurn rest
  cases s with
  | knocking left attempts rest =>
    exact (realizes_knocks left attempts rest).bind fun _ =>
      (hanswer [] attempts rest).settling .knocked
  | expecting received attempts rest => exact hanswer received attempts rest
  | sending left rest =>
    exact (realizes_sends left rest).bind fun _ => realizes_sendOnReply rest
  | awaiting rest =>
    have hreply : Realizes (.awaiting rest) awaitReply fun _ => .before rest := goes_replyFrom rest
    exact hreply.bind fun _ => realizes_sendInTurn rest
  | done result =>
    intro l
    refine ⟨.done result, .refl _ l, ?_⟩
    rcases result with e | ⟨⟩
    · exact Or.inl rfl
    · rfl

end SignedBoot.Host
