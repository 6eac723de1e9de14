import SignedBoot.Proofs.Host.OpenLine

/-!
# The history of an update

What a host does on a line, and what it hears there, in the order in which it happens. An update
writes its requests one after the other, and before each of them but the first it has heard the
acknowledgement of the one before. Whatever is neither an acknowledgement nor a refusal is passed
over. The first refusal, the first silence and the first failure of the line end the update there and
then.

A history keeps no more of an update than its requests and what was heard, so how an update ends is a
statement about lists, and `Exchanged` says which lists these are.
-/

namespace SignedBoot.Host

open Layout Wire

/-! ## Histories -/

/-- One thing that a host does or meets on a line. -/
inductive Deed where
  /-- Writes some bytes and waits until they have left. -/
  | writes (bs : Bytes)
  /-- Reads a byte. -/
  | hears (b : UInt8)
  /-- Waits for a byte until the time is up. -/
  | silence
  /-- Finds that the line cannot be read. -/
  | fails (k : IoKind)
  deriving DecidableEq, Repr

namespace Deed

/-- What a host meets when it reads. -/
def ofRead : Except IoKind (Option UInt8) → Deed
  | .ok (some b) => hears b
  | .ok none => silence
  | .error k => fails k

/-- The acknowledgement of a request. -/
abbrev ack : Deed := hears Status.ack.toByte

/-- How a deed ends an update, if it does. -/
def verdict? : Deed → Option Failure
  | hears b =>
    if b = Status.invalidPayload.toByte then some .invalidPayload
    else if b = Status.deniedAddress.toByte then some .deniedAddress
    else none
  | silence => some .noAck
  | fails k => some (.link (.kind k))
  | writes _ => none

/-- The bytes that a deed puts on the line. -/
def written : Deed → Bytes
  | writes bs => bs
  | _ => []

/-- The bytes that a deed takes from the line. -/
def heard : Deed → Bytes
  | hears b => [b]
  | _ => []

end Deed

/-- What a deed makes of a line, for a host that waits so many milliseconds for a byte. -/
inductive Line.Does (timeout : Nat) : Line → Deed → Line → Prop where
  | writes {l : Line} (bs : Bytes) : Does timeout l (.writes bs) (l.wrote bs)
  | reads {l l' : Line} {outcome : Except IoKind (Option UInt8)}
    (h : (Line.read timeout).run l = (outcome, l')) : Does timeout l (.ofRead outcome) l'

/-- The bytes written in a history. -/
def written (history : List Deed) : Bytes :=
  history.flatMap Deed.written

/-- The bytes heard in a history. -/
def heard (history : List Deed) : Bytes :=
  history.flatMap Deed.heard

/-- The number of acknowledgements in a history. -/
def acks (history : List Deed) : Nat :=
  history.count .ack

theorem written_append (xs ys : List Deed) : written (xs ++ ys) = written xs ++ written ys :=
  List.flatMap_append

theorem heard_append (xs ys : List Deed) : heard (xs ++ ys) = heard xs ++ heard ys :=
  List.flatMap_append

theorem acks_append (xs ys : List Deed) : acks (xs ++ ys) = acks xs + acks ys :=
  List.count_append

/-- A request is acknowledged by one byte. -/
theorem acks_eq_count_heard (history : List Deed) :
    acks history = (heard history).count Status.ack.toByte := by
  induction history with
  | nil => rfl
  | cons deed history ih =>
    have hheard : heard (deed :: history) = deed.heard ++ heard history := List.flatMap_cons
    have hdeed : [deed].count .ack = deed.heard.count Status.ack.toByte := by
      cases deed with
      | hears b => simp [Deed.heard, List.count_singleton]
      | writes bs => rfl
      | silence => rfl
      | fails k => rfl
    rw [hheard, List.count_append, ← hdeed, ← ih]
    exact acks_append [deed] history

/-- What a deed writes is sent, and what it hears was about to arrive. -/
theorem Line.Does.sent {timeout : Nat} {l l' : Line} {deed : Deed} (h : Line.Does timeout l deed l') :
    l'.sent.toList = l.sent.toList ++ deed.written ∧ l.arriving = deed.heard ++ l'.arriving := by
  cases h with
  | writes bs => exact ⟨by simp [Line.wrote, Deed.written], rfl⟩
  | @reads _ outcome hread =>
    have hsent : l'.sent = l.sent := (Line.keeps_of_read hread).1
    rcases outcome with k | _ | b
    · exact ⟨by simp [hsent, Deed.ofRead, Deed.written], Line.arriving_of_read hread⟩
    · exact ⟨by simp [hsent, Deed.ofRead, Deed.written], Line.arriving_of_read hread⟩
    · exact ⟨by simp [hsent, Deed.ofRead, Deed.written], Line.arriving_of_read hread⟩

/-- What a history writes is sent, and what it hears was about to arrive. -/
theorem sent_of_path {timeout : Nat} {l l' : Line} {history : List Deed}
    (h : Path (Line.Does timeout) l history l') :
    l'.sent.toList = l.sent.toList ++ written history ∧
      l.arriving = heard history ++ l'.arriving := by
  induction h with
  | nil => exact ⟨(List.append_nil _).symm, rfl⟩
  | @snoc history s t deed _ hstep ih =>
    obtain ⟨hsent, harriving⟩ := ih
    obtain ⟨hsent', harriving'⟩ := hstep.sent
    rw [written_append, heard_append, hsent', hsent, harriving, harriving']
    simp [written, heard]

/-! ## Waiting for the answer to a request -/

/-- A byte that says nothing about the request sent last. -/
def IsNoise (b : UInt8) : Prop :=
  b ≠ Status.ack.toByte ∧ b ≠ Status.invalidPayload.toByte ∧ b ≠ Status.deniedAddress.toByte

theorem IsNoise.verdict? {b : UInt8} (h : IsNoise b) : (Deed.hears b).verdict? = none := by
  rw [Deed.verdict?, if_neg h.2.1, if_neg h.2.2]

/-- What a byte says about the request sent last. -/
theorem reply?_cases (b : UInt8) :
    (reply? b = none ∧ IsNoise b) ∨ (reply? b = some (.ok ()) ∧ b = Status.ack.toByte) ∨
      ∃ e, reply? b = some (.error e) ∧ (Deed.hears b).verdict? = some e := by
  unfold reply? Status.ofByte? IsNoise
  by_cases hack : b = 0x46
  · subst hack
    exact Or.inr (Or.inl ⟨rfl, rfl⟩)
  by_cases hinvalid : b = 0x49
  · subst hinvalid
    exact Or.inr (Or.inr ⟨_, rfl, rfl⟩)
  by_cases hdenied : b = 0x41
  · subst hdenied
    exact Or.inr (Or.inr ⟨_, rfl, rfl⟩)
  · refine Or.inl ⟨?_, hack, hinvalid, hdenied⟩
    rw [if_neg hack, if_neg hinvalid, if_neg hdenied]
    split_ifs <;> rfl

/-- The host passes over noise up to an acknowledgement, or up to what ends the update. -/
theorem exists_history_of_replyFrom (l : Line) :
    ∃ (noise : Bytes) (deed : Deed),
      Path (Line.Does ackTimeout) l (noise.map .hears ++ [deed]) (replyFrom l).2 ∧
      (∀ b ∈ noise, IsNoise b) ∧
      ((replyFrom l).1 = .ok () ∧ deed = .ack ∨
        ∃ e, (replyFrom l).1 = .error e ∧ deed.verdict? = some e) := by
  fun_induction replyFrom l with
  | case1 l k l' hread =>
    exact ⟨[], .fails k, .single (.reads hread), fun b hb => absurd hb List.not_mem_nil,
      Or.inr ⟨_, rfl, rfl⟩⟩
  | case2 l l' hread =>
    exact ⟨[], .silence, .single (.reads hread), fun b hb => absurd hb List.not_mem_nil,
      Or.inr ⟨_, rfl, rfl⟩⟩
  | case3 l b l' hread answer hreply =>
    refine ⟨[], .hears b, .single (.reads hread), fun b hb => absurd hb List.not_mem_nil, ?_⟩
    rcases reply?_cases b with ⟨hnone, -⟩ | ⟨hok, rfl⟩ | ⟨e, herror, hverdict⟩
    · rw [hnone] at hreply
      cases hreply
    · rw [hok] at hreply
      cases hreply
      exact Or.inl ⟨rfl, rfl⟩
    · rw [herror] at hreply
      cases hreply
      exact Or.inr ⟨e, rfl, hverdict⟩
  | case4 l b l' hread hreply ih =>
    obtain ⟨noise, deed, hpath, hnoise, hend⟩ := ih
    refine ⟨b :: noise, deed, .cons (.reads hread) hpath, ?_, hend⟩
    rcases reply?_cases b with ⟨-, hb⟩ | ⟨hok, -⟩ | ⟨e, herror, -⟩
    · exact List.forall_mem_cons.2 ⟨hb, hnoise⟩
    · rw [hok] at hreply
      cases hreply
    · rw [herror] at hreply
      cases hreply

/-- Waiting for an answer takes nothing from what can be written. -/
theorem Line.Carries.replyFrom {l : Line} {bytes flushes : Nat} (h : l.Carries bytes flushes) :
    (replyFrom l).2.Carries bytes flushes := by
  fun_induction Host.replyFrom l with
  | case1 l k l' hread => exact (Line.keeps_of_read hread).2 h
  | case2 l l' hread => exact (Line.keeps_of_read hread).2 h
  | case3 l b l' hread answer hreply => exact (Line.keeps_of_read hread).2 h
  | case4 l b l' hread hreply ih => exact ih ((Line.keeps_of_read hread).2 h)

/-! ## Requests one after the other -/

/-- A request is written, and then some bytes are heard. -/
def asking (r : Request) (noise : Bytes) : List Deed :=
  .writes r.frame :: noise.map .hears

/-- The histories of requests that are sent one after the other, each but the first once the one before
has been acknowledged, and how they end. The last request is sent and left alone. -/
inductive Exchanged : List Request → List Deed → Except Failure Unit → Prop where
  | last (r : Request) : Exchanged [r] [.writes r.frame] (.ok ())
  | acknowledged {r : Request} {rest : List Request} {noise : Bytes} {history : List Deed}
    {result : Except Failure Unit} (hnoise : ∀ b ∈ noise, IsNoise b)
    (h : Exchanged rest history result) :
    Exchanged (r :: rest) (asking r noise ++ .ack :: history) result
  | ended {r : Request} {rest : List Request} {noise : Bytes} {deed : Deed} {e : Failure}
    (hrest : rest ≠ []) (hnoise : ∀ b ∈ noise, IsNoise b) (hdeed : deed.verdict? = some e) :
    Exchanged (r :: rest) (asking r noise ++ [deed]) (.error e)

/-- The bytes that some requests are sent as. -/
def encodings (requests : List Request) : Bytes :=
  requests.flatMap Request.frame

theorem encodings_cons (r : Request) (rest : List Request) :
    encodings (r :: rest) = r.frame ++ encodings rest :=
  List.flatMap_cons

theorem run_send {r : Request} (hfit : r.Fits) {l : Line} (h : l.Carries r.frame.length 1) :
    (send r).run l = (.ok (), l.wrote r.frame) := by
  unfold send
  rw [Request.encode?_eq_of_fits hfit]
  exact Line.run_transmit h

/-- A request is written, noise is passed over, and then comes an acknowledgement or what ends the
update. -/
theorem exists_history_of_request {r : Request} (hfit : r.Fits) {l : Line} {bytes flushes : Nat}
    (h : l.Carries (r.frame.length + bytes) (1 + flushes)) :
    ∃ (noise : Bytes) (deed : Deed),
      Path (Line.Does ackTimeout) l (asking r noise ++ [deed]) ((request r).run l).2 ∧
      (∀ b ∈ noise, IsNoise b) ∧ ((request r).run l).2.Carries bytes flushes ∧
      (((request r).run l).1 = .ok () ∧ deed = .ack ∨
        ∃ e, ((request r).run l).1 = .error e ∧ deed.verdict? = some e) := by
  have hsend : (send r).run l = (.ok (), l.wrote r.frame) :=
    run_send hfit (h.mono (Nat.le_add_right _ _) (Nat.le_add_right _ _))
  have hrequest : (request r).run l = replyFrom (l.wrote r.frame) := by
    unfold request
    rw [Attempt.run_bind_ok hsend]
    rfl
  obtain ⟨noise, deed, hpath, hnoise, hend⟩ := exists_history_of_replyFrom (l.wrote r.frame)
  rw [hrequest]
  exact ⟨noise, deed, .cons (.writes r.frame) hpath, hnoise, h.wrote.replyFrom, hend⟩

/-- On a line that takes them, requests are sent one after the other. -/
theorem exchanged_of_run {requests : List Request} {last : Request}
    (hfit : ∀ r ∈ requests ++ [last], r.Fits) {l : Line}
    (h : l.Carries (encodings (requests ++ [last])).length (requests.length + 1)) :
    let ran := (requests.forM request >>= fun _ => send last).run l
    ∃ history, Path (Line.Does ackTimeout) l history ran.2 ∧
      Exchanged (requests ++ [last]) history ran.1 := by
  induction requests generalizing l with
  | nil =>
    have hsend : (send last).run l = (.ok (), l.wrote last.frame) :=
      run_send (hfit last List.mem_cons_self) (by simpa [encodings] using h)
    have hrun : (List.forM [] request >>= fun _ => send last).run l =
        (.ok (), l.wrote last.frame) := hsend
    rw [hrun]
    exact ⟨_, .single (.writes last.frame), .last last⟩
  | cons r rest ih =>
    obtain ⟨hr, hrest⟩ := List.forall_mem_cons.1 hfit
    rw [List.cons_append, encodings_cons, List.length_append, List.length_cons,
      Nat.add_comm (rest.length + 1)] at h
    obtain ⟨noise, deed, hpath, hnoise, hopen, hend⟩ := exists_history_of_request hr h
    have hforM : (List.forM (r :: rest) request >>= fun _ => send last) =
        request r >>= fun _ => List.forM rest request >>= fun _ => send last := by
      rw [← bind_assoc]
      rfl
    rw [hforM]
    rcases hrun : (request r).run l with ⟨e | ⟨⟩, l'⟩
    · rw [hrun] at hpath hend
      rw [Attempt.run_bind_error hrun]
      rcases hend with ⟨hok, -⟩ | ⟨e', herror, hverdict⟩
      · cases hok
      · cases herror
        exact ⟨_, hpath, .ended (by simp) hnoise hverdict⟩
    · rw [hrun] at hpath hopen hend
      rw [Attempt.run_bind_ok hrun]
      rcases hend with ⟨-, rfl⟩ | ⟨e', herror, -⟩
      · obtain ⟨history, hrestpath, hexchanged⟩ := ih hrest hopen
        refine ⟨_, hpath.append hrestpath, ?_⟩
        rw [List.append_assoc, List.singleton_append]
        exact .acknowledged hnoise hexchanged
      · cases herror

/-! ## What the histories have in common -/

section
variable {r : Request} {noise : Bytes}

theorem written_asking : written (asking r noise) = r.frame := by
  simp [written, asking, Deed.written, List.flatMap_map]

theorem acks_asking (hnoise : ∀ b ∈ noise, IsNoise b) : acks (asking r noise) = 0 := by
  refine List.count_eq_zero.2 fun hack => ?_
  rcases List.mem_cons.1 hack with heq | hheard
  · cases heq
  · obtain ⟨b, hb, heq⟩ := List.mem_map.1 hheard
    exact (hnoise b hb).1 (Deed.hears.inj heq)

theorem not_mem_asking (hnoise : ∀ b ∈ noise, IsNoise b) {deed : Deed} {e : Failure}
    (hverdict : deed.verdict? = some e) : deed ∉ asking r noise := by
  intro hmem
  rcases List.mem_cons.1 hmem with rfl | hheard
  · cases hverdict
  · obtain ⟨b, hb, rfl⟩ := List.mem_map.1 hheard
    rw [(hnoise b hb).verdict?] at hverdict
    cases hverdict

end

/-- What ends an update writes nothing and acknowledges nothing. -/
theorem quiet_of_verdict? {deed : Deed} {e : Failure} (h : deed.verdict? = some e) :
    deed.written = [] ∧ deed ≠ .ack := by
  refine ⟨?_, ?_⟩
  · cases deed with
    | writes bs => cases h
    | hears b => rfl
    | silence => rfl
    | fails k => rfl
  · rintro rfl
    cases h

/-- An item that is not in the front part of a list is behind it. -/
theorem exists_of_append_eq_append_cons {α : Type} {xs ys front back : List α} {a : α}
    (h : xs ++ ys = front ++ a :: back) (ha : a ∉ xs) :
    ∃ between, front = xs ++ between ∧ ys = between ++ a :: back := by
  rcases List.append_eq_append_iff.1 h with ⟨between, hfront, hys⟩ | ⟨between, hxs, hback⟩
  · exact ⟨between, hfront, hys⟩
  · cases between with
    | nil => exact ⟨[], by simp [hxs], by simpa using hback.symm⟩
    | cons a' between =>
      obtain ⟨rfl, -⟩ := List.cons.inj hback
      exact absurd (hxs ▸ List.mem_append_right front List.mem_cons_self) ha

/-- What is written from an asking on is its request or comes behind it. -/
theorem writes_of_asking_append {r : Request} {noise bs : Bytes} {later front back : List Deed}
    (h : asking r noise ++ later = front ++ .writes bs :: back) :
    (front = [] ∧ bs = r.frame) ∨
      ∃ between, front = asking r noise ++ between ∧ later = between ++ .writes bs :: back := by
  cases front with
  | nil =>
    obtain ⟨heq, -⟩ := List.cons.inj h
    exact Or.inl ⟨rfl, (Deed.writes.inj heq).symm⟩
  | cons deed front =>
    obtain ⟨rfl, htail⟩ := List.cons.inj h
    have hheard : Deed.writes bs ∉ noise.map .hears := by simp
    obtain ⟨between, rfl, hlater⟩ := exists_of_append_eq_append_cons htail hheard
    exact Or.inr ⟨between, rfl, hlater⟩

/-- How requests are sent one after the other. -/
structure Orderly (requests : List Request) (history : List Deed) (result : Except Failure Unit) :
    Prop where
  /-- What is written is the first requests, one more of them than are acknowledged. -/
  written_eq : written history = encodings (requests.take (acks history + 1))
  acks_lt : acks history < requests.length
  /-- All goes well exactly if every request but the last is acknowledged. -/
  ok_iff : result = .ok () ↔ acks history + 1 = requests.length
  /-- Each request is written as one, once those before it are acknowledged, and at once then. -/
  inTurn : ∀ {front back : List Deed} {bs : Bytes}, history = front ++ .writes bs :: back →
    (∃ r, requests[acks front]? = some r ∧ bs = r.frame) ∧
      (front = [] ∨ ∃ earlier, front = earlier ++ [.ack])
  /-- Nothing follows what ends an update. -/
  stops : ∀ {front back : List Deed} {deed : Deed} {e : Failure},
    history = front ++ deed :: back → deed.verdict? = some e → back = [] ∧ result = .error e
  /-- Nothing but that ends it before all requests are written. -/
  ends : ∀ {e : Failure}, result = .error e →
    ∃ front deed, history = front ++ [deed] ∧ deed.verdict? = some e
  /-- Nothing is read behind the last request. -/
  finishes : result = .ok () → ∃ front bs, history = front ++ [.writes bs]

namespace Orderly

variable {requests rest : List Request} {r : Request} {noise : Bytes} {history : List Deed}
  {result : Except Failure Unit}

theorem last (r : Request) : Orderly [r] [.writes r.frame] (.ok ()) where
  written_eq := rfl
  acks_lt := Nat.zero_lt_one
  ok_iff := iff_of_true rfl rfl
  inTurn := by
    intro front back bs h
    obtain ⟨rfl, rfl, rfl⟩ : front = [] ∧ bs = r.frame ∧ back = [] := by
      cases front <;> simp_all
    exact ⟨⟨r, rfl, rfl⟩, Or.inl rfl⟩
  stops := by
    intro front back deed e h hverdict
    have hmem : deed ∈ [Deed.writes r.frame] := by simp [h]
    obtain rfl := List.mem_singleton.1 hmem
    cases hverdict
  ends := fun h => by cases h
  finishes := fun _ => ⟨[], _, rfl⟩

theorem acknowledged (hnoise : ∀ b ∈ noise, IsNoise b) (h : Orderly rest history result) :
    Orderly (r :: rest) (asking r noise ++ .ack :: history) result := by
  have hacks : ∀ xs, acks (asking r noise ++ .ack :: xs) = acks xs + 1 := by
    intro xs
    rw [acks_append, acks_asking hnoise, Nat.zero_add]
    exact List.count_cons_self
  exact {
    written_eq := by
      rw [written_append, written_asking, hacks, List.take_succ_cons, encodings_cons, ← h.written_eq]
      rfl
    acks_lt := by
      rw [hacks, List.length_cons]
      exact Nat.succ_lt_succ h.acks_lt
    ok_iff := by
      rw [hacks, List.length_cons, h.ok_iff, Nat.add_right_cancel_iff]
    inTurn := by
      intro front back bs hsplit
      rcases writes_of_asking_append hsplit with ⟨rfl, rfl⟩ | ⟨between, rfl, hlater⟩
      · exact ⟨⟨r, rfl, rfl⟩, Or.inl rfl⟩
      · obtain ⟨rfl, hnil⟩ | ⟨between', rfl, hhistory⟩ := List.cons_eq_append_iff.1 hlater
        · cases hnil
        -- Counted from the first request, there is one acknowledgement more than in the rest.
        · obtain ⟨⟨r', hr', hbs⟩, hbefore⟩ := h.inTurn hhistory
          refine ⟨⟨r', ?_, hbs⟩, Or.inr ?_⟩
          · rw [hacks, List.getElem?_cons_succ]
            exact hr'
          · rcases hbefore with rfl | ⟨earlier, rfl⟩
            · exact ⟨_, rfl⟩
            · exact ⟨asking r noise ++ .ack :: earlier, by simp⟩
    stops := by
      intro front back deed e hsplit hverdict
      obtain ⟨between, rfl, hlater⟩ :=
        exists_of_append_eq_append_cons hsplit (not_mem_asking hnoise hverdict)
      obtain ⟨rfl, hcons⟩ | ⟨between', rfl, hhistory⟩ := List.cons_eq_append_iff.1 hlater
      · exact absurd (List.cons.inj hcons).1 (quiet_of_verdict? hverdict).2
      · exact h.stops hhistory hverdict
    ends := by
      intro e he
      obtain ⟨front, deed, rfl, hverdict⟩ := h.ends he
      exact ⟨asking r noise ++ .ack :: front, deed, by simp, hverdict⟩
    finishes := by
      intro hok
      obtain ⟨front, bs, rfl⟩ := h.finishes hok
      exact ⟨asking r noise ++ .ack :: front, bs, by simp⟩ }

theorem ended {deed : Deed} {e : Failure} (hrest : rest ≠ []) (hnoise : ∀ b ∈ noise, IsNoise b)
    (hdeed : deed.verdict? = some e) :
    Orderly (r :: rest) (asking r noise ++ [deed]) (.error e) := by
  obtain ⟨hquiet, hack⟩ := quiet_of_verdict? hdeed
  have hacks : acks (asking r noise ++ [deed]) = 0 := by
    rw [acks_append, acks_asking hnoise, Nat.zero_add]
    exact List.count_eq_zero.2 fun hmem => hack (List.mem_singleton.1 hmem).symm
  exact {
    written_eq := by
      rw [written_append, written_asking, hacks]
      simp [written, hquiet, encodings]
    acks_lt := by
      rw [hacks]
      exact Nat.succ_pos _
    ok_iff := by
      have hpos : 0 < rest.length := List.length_pos_iff.2 hrest
      rw [hacks, List.length_cons]
      refine iff_of_false (fun h => by cases h) ?_
      omega
    inTurn := by
      intro front back bs hsplit
      rcases writes_of_asking_append hsplit with ⟨rfl, rfl⟩ | ⟨between, rfl, hlater⟩
      · exact ⟨⟨r, rfl, rfl⟩, Or.inl rfl⟩
      · have hmem : Deed.writes bs ∈ [deed] := by simp [hlater]
        obtain rfl := List.mem_singleton.1 hmem
        cases hdeed
    stops := by
      intro front back deed' e' hsplit hverdict
      obtain ⟨between, rfl, hlater⟩ :=
        exists_of_append_eq_append_cons hsplit (not_mem_asking hnoise hverdict)
      obtain ⟨rfl, hcons⟩ | ⟨between', rfl, hnil⟩ := List.cons_eq_append_iff.1 hlater
      · obtain ⟨rfl, rfl⟩ := List.cons.inj hcons
        rw [hdeed] at hverdict
        exact ⟨rfl, congrArg Except.error (Option.some.inj hverdict)⟩
      · simp at hnil
    ends := by
      intro e' he
      cases he
      exact ⟨asking r noise, deed, rfl, hdeed⟩
    finishes := fun hok => by cases hok }

end Orderly

/-- However an exchange goes, the requests are sent one after the other. -/
theorem Exchanged.orderly {requests : List Request} {history : List Deed}
    {result : Except Failure Unit} (h : Exchanged requests history result) :
    Orderly requests history result := by
  induction h with
  | last r => exact .last r
  | acknowledged hnoise _ ih => exact ih.acknowledged hnoise
  | ended hrest hnoise hdeed => exact .ended hrest hnoise hdeed

/-! ## The update -/

/-- On a line that takes what is written, an update writes its requests in order, each once the one
before has been acknowledged, until the first refusal, silence or failure of the line, and reads nothing
behind that. All of its requests can be encoded, and its size can be sent. -/
theorem orderly_flash (image : Image) (signature : Vector UInt8 signatureLen) {l : Line}
    (h : l.Carries (encodings (updateRequests image signature)).length
      (updateRequests image signature).length) :
    updateRequests image signature =
        (List.range ((image.size + 63) / 64)).map
          (fun i => .data (64 * i) ((image.bytes.drop (64 * i)).take 64)) ++
        [.size (Bytes.field sizeLen image.size), .signature signature, .stop] ∧
      Request.ofSize? image.size = some (.size (Bytes.field sizeLen image.size)) ∧
      (∀ r ∈ updateRequests image signature, r.encode? = some r.frame) ∧
      ∃ history l' result, (flash image signature).run l = (result, l') ∧
        Path (Line.Does ackTimeout) l history l' ∧
        l'.sent.toList = l.sent.toList ++ written history ∧
        l.arriving = heard history ++ l'.arriving ∧
        Orderly (updateRequests image signature) history result := by
  have hfit : ∀ r ∈ updateRequests image signature, r.Fits := fun r hr => (mem_updateRequests hr).1
  have hlength : (updateRequests image signature).length =
      (programRequests image signature).length + 1 := List.length_append
  rw [hlength] at h
  obtain ⟨history, hpath, hexchanged⟩ := exchanged_of_run hfit h
  rw [← flash_eq] at hpath hexchanged
  obtain ⟨hsent, harriving⟩ := sent_of_path hpath
  exact ⟨updateRequests_eq image signature, ofSize?_size image,
    fun r hr => Request.encode?_eq_of_fits (hfit r hr),
    history, _, _, rfl, hpath, hsent, harriving, hexchanged.orderly⟩

/-- A line on which noise, a refusal and an acknowledgement arrive. -/
def refusing : Line :=
  .ofEvents [.byte 0x78, .byte Status.deniedAddress.toByte, .byte Status.ack.toByte]
    none none none none

/-- The update of a single byte on that line. -/
def refusedUpdate : Except Failure Unit × Line :=
  (flash (Image.ofByte 0) (Vector.replicate signatureLen 0)).run refusing

/-- The noise is passed over, the refusal ends the update, and what comes behind it stays unread. -/
theorem refused_update_history :
    ∃ history result l', refusedUpdate = (result, l') ∧ result = .error .deniedAddress ∧
      heard history = [0x78, 0x41] ∧ l'.arriving = [0x46] ∧ acks history = 0 ∧
      written history = (Request.data 0 [0]).frame ∧
      Orderly (updateRequests (Image.ofByte 0) (Vector.replicate signatureLen 0)) history result := by
  have hcarries : refusing.Carries
      (encodings (updateRequests (Image.ofByte 0) (Vector.replicate signatureLen 0))).length
      (updateRequests (Image.ofByte 0) (Vector.replicate signatureLen 0)).length :=
    ⟨nofun, nofun, nofun⟩
  obtain ⟨-, -, -, history, l', result, hrun, -, hsent, harriving, horderly⟩ :=
    orderly_flash (Image.ofByte 0) (Vector.replicate signatureLen 0) hcarries
  have hrun' : refusedUpdate = (result, l') := hrun
  have hresult : refusedUpdate.1 = .error .deniedAddress := by decide +kernel
  have hleft : refusedUpdate.2.arriving = [0x46] := by decide +kernel
  have hwritten : refusedUpdate.2.sent.toList = (Request.data 0 [0]).frame := by decide +kernel
  rw [hrun'] at hresult hleft hwritten
  rw [hleft] at harriving
  have hheard : heard history = [0x78, 0x41] := (List.append_cancel_right harriving).symm
  have hacks : acks history = 0 := by
    rw [acks_eq_count_heard, hheard]
    rfl
  exact ⟨history, result, l', hrun', hresult, hheard, hleft, hacks, hsent.symm.trans hwritten,
    horderly⟩

end SignedBoot.Host
