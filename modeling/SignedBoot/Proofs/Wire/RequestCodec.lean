import Mathlib.Data.List.Basic
import Mathlib.Tactic.Common
import SignedBoot.Proofs.Bytes
import SignedBoot.Proofs.Wire.Framing
import SignedBoot.Wire.Request

/-!
# Requests through a frame

The frame of a request is its command letter and its operands, wrapped. A request whose operands fit
is always encoded, its content leaves room in the receive buffer, and reading the content gives the
request back. So requests that are encoded one behind the other come out of an assembler as they
went in.
-/

namespace SignedBoot.Wire

namespace Request

/-- What travels in the frame of a request. -/
def content (r : Request) : Bytes :=
  r.opcode.toByte :: r.payload

theorem frame_eq_wrap (r : Request) : r.frame = wrap r.content := rfl

/-- Operands that fit leave room in an encoded frame. -/
theorem length_content_le {r : Request} (h : r.Fits) : r.content.length ≤ 1 + maxPayloadLen := by
  cases r with
  | size field =>
    simp only [content, payload, List.length_cons, Vector.length_toList]
    decide
  | signature field =>
    simp only [content, payload, List.length_cons, Vector.length_toList]
    decide
  | data addr chunk =>
    have hlen : chunk.length ≤ 64 := h.1
    simp only [content, payload, List.length_cons, List.length_append, Bytes.length_ofNat]
    show 1 + 3 + chunk.length + 1 ≤ 69
    omega
  | stop => simp [content, payload]

theorem length_content_lt {r : Request} (h : r.Fits) :
    r.content.length + 1 < Layout.frameCapacity := by
  have hle : r.content.length ≤ 69 := length_content_le h
  show r.content.length + 1 < 72
  omega

theorem length_frame_le {r : Request} (h : r.Fits) : r.frame.length ≤ maxEncodedLen := by
  have hescape := length_escape_le r.content
  have hcontent : r.content.length ≤ 69 := length_content_le h
  rw [frame_eq_wrap, wrap, List.length_append, List.length_cons, List.length_singleton]
  show (escape r.content).length + 1 + 1 ≤ 140
  omega

theorem encode?_eq_of_fits {r : Request} (h : r.Fits) : r.encode? = some r.frame := by
  rw [encode?, if_pos h, if_pos (length_frame_le h)]

/-- Exactly the requests whose operands fit are encoded, each as its frame. -/
theorem encode?_eq_some_iff {r : Request} {encoding : Bytes} :
    r.encode? = some encoding ↔ r.Fits ∧ encoding = r.frame := by
  constructor
  · intro h
    by_cases hfits : r.Fits
    · rw [encode?_eq_of_fits hfits] at h
      exact ⟨hfits, (Option.some.inj h).symm⟩
    · rw [encode?, if_neg hfits] at h
      cases h
  · rintro ⟨hfits, rfl⟩
    exact encode?_eq_of_fits hfits

theorem ofByte?_toByte (o : Opcode) : Opcode.ofByte? o.toByte = some o := by
  cases o <;> rfl

theorem eq_toByte_of_ofByte? {b : UInt8} {o : Opcode} (h : Opcode.ofByte? b = some o) :
    b = o.toByte := by
  unfold Opcode.ofByte? at h
  split_ifs at h with hsize hsignature hdata hstop
  · cases h
    exact hsize
  · cases h
    exact hsignature
  · cases h
    exact hdata
  · cases h
    exact hstop

/-- A request is read only from a frame with its own command letter. -/
theorem eq_toByte_of_parse? {opcode : UInt8} {payload : Bytes} {r : Request}
    (h : parse? opcode payload = some r) : opcode = r.opcode.toByte := by
  unfold parse? at h
  rcases ho : Opcode.ofByte? opcode with _ | o
  · rw [ho] at h
    cases h
  rw [ho] at h
  have hopcode : r.opcode = o := by
    cases o with
    | size =>
      obtain ⟨field, -, rfl⟩ := Option.map_eq_some_iff.1 h
      rfl
    | signature =>
      obtain ⟨field, -, rfl⟩ := Option.map_eq_some_iff.1 h
      rfl
    | data =>
      simp only at h
      unfold parseData? at h
      split at h
      · split at h
        · cases h
          rfl
        · cases h
      · cases h
    | stop =>
      simp only at h
      split at h
      · cases h
        rfl
      · cases h
  rw [hopcode]
  exact eq_toByte_of_ofByte? ho

/-- What a data request that was read from a frame aims at, and how long it is, fits into its fields. -/
theorem bounds_of_parse? {opcode : UInt8} {payload : Bytes} {addr : Nat} {chunk : Bytes}
    (h : parse? opcode payload = some (.data addr chunk)) :
    addr ≤ maxAddress ∧ chunk.length < 256 := by
  obtain rfl := eq_toByte_of_parse? h
  rw [parse?, ofByte?_toByte] at h
  change parseData? payload = some (.data addr chunk) at h
  unfold parseData? at h
  split at h
  · next len a b c first rest =>
    split at h
    · cases h
      have hlen := len.toNat_lt
      have ha := a.toNat_lt
      have hb := b.toNat_lt
      have hc := c.toNat_lt
      rw [List.length_take]
      simp only [Bytes.toNat, List.foldl_cons, List.foldl_nil, maxAddress]
      omega
    · cases h
  · cases h

theorem toByte_injective : Function.Injective Opcode.toByte := by
  intro a b h
  apply Option.some.inj
  rw [← ofByte?_toByte a, ← ofByte?_toByte b, h]

/-- A data request with at least one byte. -/
def HasBytes : Request → Prop
  | data _ chunk => chunk ≠ []
  | _ => True

/-- Reading what travels in a frame gives the request back. -/
theorem parse?_content {r : Request} (h : r.Fits) (hne : r.HasBytes) :
    parse? r.opcode.toByte r.payload = some r := by
  rw [parse?, ofByte?_toByte]
  cases r with
  | size field =>
    show (Bytes.toField? Layout.sizeLen field.toList).map size = _
    rw [Bytes.toField?_toList]
    rfl
  | signature field =>
    show (Bytes.toField? Layout.signatureLen field.toList).map signature = _
    rw [Bytes.toField?_toList]
    rfl
  | data addr chunk =>
    obtain ⟨first, rest, rfl⟩ := List.exists_cons_of_ne_nil hne
    obtain ⟨hlen, haddr⟩ := h
    have hlen64 : (first :: rest).length ≤ 64 := hlen
    have hbyte : (UInt8.ofNat (first :: rest).length).toNat = (first :: rest).length := by
      rw [UInt8.toNat_ofNat', Nat.mod_eq_of_lt (by omega)]
    have hfield : Bytes.toNat (Bytes.ofNat 3 addr) = addr := by
      rw [Bytes.toNat_ofNat, Nat.mod_eq_of_lt (by norm_num; exact Nat.lt_succ_of_le haddr)]
    show parseData? (UInt8.ofNat (first :: rest).length :: Bytes.ofNat 3 addr ++ first :: rest) = _
    show (if (UInt8.ofNat (first :: rest).length).toNat ≤ (first :: rest).length then
      some (data (Bytes.toNat (Bytes.ofNat 3 addr))
        ((first :: rest).take (UInt8.ofNat (first :: rest).length).toNat))
      else none) = _
    rw [hbyte, if_pos (Nat.le_refl _), hfield, List.take_length]
  | stop => rfl

end Request

/-! ## Streams of requests -/

/-- The request that a completed frame carries. -/
def Frame.request? (frame : Frame) : Option Request :=
  frame.opcode.bind fun opcode => Request.parse? opcode frame.payload

theorem request?_ofContent {r : Request} (h : r.Fits) (hne : r.HasBytes) :
    (Frame.ofContent r.content).request? = some r :=
  Request.parse?_content h hne

/-- Whatever an assembler without a pending escape holds, the encodings of requests laid end to end
complete one frame for each request, at the last byte of its encoding, and the request is read back
from it. -/
theorem requests_survive_stream {n : Nat} (hn : 71 ≤ n) {s : Assembler n} (hs : s.escaped = false)
    {requests : List Request} (hfit : ∀ r ∈ requests, r.Fits ∧ r.HasBytes) :
    ∃ encodings : List Bytes,
      requests.map Request.encode? = encodings.map some ∧
      (s.feedAll encodings.flatten).2.map Prod.fst = lastPositions 0 encodings ∧
      (s.feedAll encodings.flatten).2.map (fun completed => completed.2.request?) =
        requests.map some := by
  have hroom : ∀ content ∈ requests.map Request.content, content.length + 1 < n := by
    intro content hcontent
    obtain ⟨r, hr, rfl⟩ := List.mem_map.1 hcontent
    have hle : r.content.length ≤ 69 := Request.length_content_le (hfit r hr).1
    omega
  have hcompleted : (s.feedAll (requests.map (wrap ∘ Request.content)).flatten).2 =
      (lastPositions 0 (requests.map (wrap ∘ Request.content))).zip
        (requests.map (Frame.ofContent ∘ Request.content)) := by
    have hwraps := Assembler.go_wraps hs hroom 0
    rw [List.flatMap_def, List.map_map, List.map_map] at hwraps
    exact hwraps
  have hlen : (requests.map (Frame.ofContent ∘ Request.content)).length =
      (lastPositions 0 (requests.map (wrap ∘ Request.content))).length := by
    rw [length_lastPositions, List.length_map, List.length_map]
  refine ⟨requests.map (wrap ∘ Request.content), ?_, ?_, ?_⟩
  · rw [List.map_map]
    apply List.map_congr_left
    intro r hr
    exact Request.encode?_eq_of_fits (hfit r hr).1
  · rw [hcompleted, List.map_fst_zip (Nat.le_of_eq hlen.symm)]
  · rw [hcompleted]
    show List.map (Frame.request? ∘ Prod.snd) _ = _
    rw [← List.map_map, List.map_snd_zip (Nat.le_of_eq hlen), List.map_map]
    apply List.map_congr_left
    intro r hr
    exact request?_ofContent (hfit r hr).1 (hfit r hr).2

/-- A size with `@` in it, a chunk at an address with a newline in it and with all three markers in
its data, and a stop. -/
def markerRequests : List Request :=
  [.size (Bytes.field 3 0x40), .data 0x000A40 [0x40, 0x0A, 0x5C], .stop]

/-- An assembler that holds the front of a frame that broke off. -/
def brokenOff : Assembler 71 :=
  (Assembler.empty 71).after [0x40, 0x44, 0x13]

theorem markers_survive_stream_behind_noise :
    71 ≤ 71 ∧ brokenOff.escaped = false ∧ (∀ r ∈ markerRequests, r.Fits ∧ r.HasBytes) ∧
      ∃ encodings : List Bytes,
        markerRequests.map Request.encode? = encodings.map some ∧
        (brokenOff.feedAll encodings.flatten).2.map Prod.fst = lastPositions 0 encodings ∧
        (brokenOff.feedAll encodings.flatten).2.map (fun completed => completed.2.request?) =
          markerRequests.map some := by
  have hquiet : brokenOff.escaped = false := rfl
  have hfit : ∀ r ∈ markerRequests, r.Fits ∧ r.HasBytes := by
    intro r hr
    simp only [markerRequests, List.mem_cons, List.not_mem_nil, or_false] at hr
    obtain rfl | rfl | rfl := hr
    · exact ⟨trivial, trivial⟩
    · exact ⟨by decide, List.cons_ne_nil _ _⟩
    · exact ⟨trivial, trivial⟩
  exact ⟨Nat.le_refl 71, hquiet, hfit, requests_survive_stream (Nat.le_refl 71) hquiet hfit⟩

end SignedBoot.Wire
