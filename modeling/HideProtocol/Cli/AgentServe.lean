import HideProtocol.Cli.Agent
import HideProtocol.Lib.Reader

/-!
# Serving a connection

Requests arrive on a stream, each behind its length, and each answer goes back in the same form.
The stream is a reader, whatever its schedule of short reads, interruptions and failures, and a
writer whose every call may fail. `serve_exact` says what any stream makes of the loop: the
requests that are framed well at its start are answered in order, and what follows them decides
how the connection ends.
-/

namespace HideProtocol.Cli.Agent

open Lib

/-- No request is longer. -/
def maxMessage : ℕ := 256 * 1024

/-- Why a connection is given up. -/
inductive ServeError where
  | read (error : Reader.ReadError)
  | write (error : IoError)
  | outOfRange (length : ℕ)
deriving DecidableEq, Repr

/-- A connection: the stream, what is allocated for requests, and the state of the approver. -/
structure Connection (σ : Type) where
  input : Reader
  state : σ
  sent : Bytes := []
  calls : ℕ := 0
  allocated : List ℕ := []

section
variable (P : Sign.Primitives) (sha256 : Bytes → Vector UInt8 32) {σ : Type}

/-- What the writer does in each of its calls: it succeeds, or fails behind some of the bytes. -/
abbrev Faults := ℕ → Option (ℕ × IoError)

/-- One call of `write_all`, or with no bytes of `flush`. -/
def send (faults : Faults) (bytes : Bytes) (c : Connection σ) : Option IoError × Connection σ :=
  match faults c.calls with
  | none => (none, { c with sent := c.sent ++ bytes, calls := c.calls + 1 })
  | some (n, error) => (some error, { c with sent := c.sent ++ bytes.take n, calls := c.calls + 1 })

/-- Writes the length of the response, the response, and flushes. -/
def sendResponse (faults : Faults) (response : Bytes) (c : Connection σ) :
    Option IoError × Connection σ :=
  match send faults (beBytes 4 response.length) c with
  | (some error, c) => (some error, c)
  | (none, c) =>
    match send faults response c with
    | (some error, c) => (some error, c)
    | (none, c) => send faults [] c

/-- One turn of the loop, and its result if it is the last. `isEof` says of an error whether its
kind is `UnexpectedEof`. -/
def serveTurn (self : Agent) (approver : Approver σ) (isEof : IoError → Bool) (faults : Faults)
    (c : Connection σ) : Option (Except ServeError Unit) × Connection σ :=
  match c.input.readExact 4 with
  | (.error .unexpectedEof, input) => (some (.ok ()), { c with input })
  | (.error (.io error), input) =>
    (some (if isEof error then .ok () else .error (.read (.io error))), { c with input })
  | (.ok header, input) =>
    let length := ofBe header
    if length = 0 ∨ length > maxMessage then
      -- nothing is allocated on a length that is already judged absurd
      (some (.error (.outOfRange length)), { c with input })
    else
      match input.readExact length with
      | (.error error, input) =>
        (some (.error (.read error)), { c with input, allocated := c.allocated ++ [length] })
      | (.ok request, input) =>
        let (response, state) := self.respond P sha256 request approver c.state
        match sendResponse faults response
            { c with input, state, allocated := c.allocated ++ [length] } with
        | (some error, c) => (some (.error (.write error)), c)
        | (none, c) => (none, c)

@[simp] theorem input_send (faults : Faults) (bytes : Bytes) (c : Connection σ) :
    (send faults bytes c).2.input = c.input := by
  unfold send
  split <;> rfl

@[simp] theorem input_sendResponse (faults : Faults) (response : Bytes) (c : Connection σ) :
    (sendResponse faults response c).2.input = c.input := by
  have hlength := input_send faults (beBytes 4 response.length) c
  unfold sendResponse
  rcases hfirst : send faults (beBytes 4 response.length) c with ⟨error, c'⟩
  rw [hfirst] at hlength
  cases error with
  | some error => exact hlength
  | none =>
    have hresponse := input_send faults response c'
    rcases hsecond : send faults response c' with ⟨error, c''⟩
    rw [hsecond] at hresponse
    dsimp only at hlength hresponse ⊢
    rw [hsecond]
    cases error with
    | some error => exact hresponse.trans hlength
    | none => exact (input_send faults [] c'').trans (hresponse.trans hlength)

/-- A turn that is not the last has read a request. -/
theorem size_of_serveTurn {self : Agent} {approver : Approver σ} {isEof : IoError → Bool}
    {faults : Faults} {c c' : Connection σ}
    (h : serveTurn P sha256 self approver isEof faults c = (none, c')) :
    c'.input.size < c.input.size := by
  unfold serveTurn at h
  split at h
  next => cases h
  next => cases h
  next header input hheader =>
    have hsize := Reader.size_of_readExact hheader
    dsimp only at h
    split at h
    next => cases h
    next =>
      split at h
      next => cases h
      next request input' hrequest =>
        have hsize' := Reader.size_of_readExact hrequest
        split at h
        next => cases h
        next c'' hsent =>
          cases h
          have hinput := congrArg (fun r => r.2.input) hsent
          dsimp only at hinput
          rw [input_sendResponse] at hinput
          rw [← hinput]
          show input'.size < c.input.size
          omega

/-- Serves one connection until the peer hangs up. -/
def serve (self : Agent) (approver : Approver σ) (isEof : IoError → Bool) (faults : Faults)
    (c : Connection σ) : Except ServeError Unit × Connection σ :=
  match _h : serveTurn P sha256 self approver isEof faults c with
  | (some result, c') => (result, c')
  | (none, c') => serve self approver isEof faults c'
termination_by c.input.size
decreasing_by exact size_of_serveTurn P sha256 _h

end

/-! ## One turn -/

section
variable {P : Sign.Primitives} {sha256 : Bytes → Vector UInt8 32} {σ : Type} {self : Agent}
  {approver : Approver σ} {isEof : IoError → Bool} {faults : Faults} {c c' : Connection σ}
  {failure : Option IoError}

theorem serve_of_stop {result : Except ServeError Unit}
    (h : serveTurn P sha256 self approver isEof faults c = (some result, c')) :
    serve P sha256 self approver isEof faults c = (result, c') := by
  rw [serve]
  split
  next heq =>
    rw [h] at heq
    cases heq
    rfl
  next heq =>
    rw [h] at heq
    cases heq

theorem serve_of_again (h : serveTurn P sha256 self approver isEof faults c = (none, c')) :
    serve P sha256 self approver isEof faults c =
      serve P sha256 self approver isEof faults c' := by
  rw [serve]
  split
  next heq =>
    rw [h] at heq
    cases heq
  next heq =>
    rw [h] at heq
    cases heq
    rfl

/-- A request has a length that is read. -/
def WellSized (request : Bytes) : Prop := 1 ≤ request.length ∧ request.length ≤ maxMessage

theorem ofBe_beBytes_length {request : Bytes} (h : request.length ≤ maxMessage) :
    ofBe (beBytes 4 request.length) = request.length := by
  have hmax : maxMessage < 256 ^ 4 := by decide
  exact ofBe_beBytes (by omega)

/-- The response is sent whole, or an initial part of it. -/
theorem sendResponse_cases (faults : Faults) (response : Bytes) (c : Connection σ) :
    (∃ error part calls, part <+: putString response ∧
      sendResponse faults response c =
        (some error, { c with sent := c.sent ++ part, calls })) ∨
    sendResponse faults response c =
      (none, { c with sent := c.sent ++ putString response, calls := c.calls + 3 }) := by
  unfold sendResponse send
  cases hlength : faults c.calls with
  | some fault =>
    left
    refine ⟨fault.2, (beBytes 4 response.length).take fault.1, c.calls + 1, ?_, rfl⟩
    exact (List.take_prefix _ _).trans (List.prefix_append _ _)
  | none =>
    dsimp only
    cases hresponse : faults (c.calls + 1) with
    | some fault =>
      left
      refine ⟨fault.2, beBytes 4 response.length ++ response.take fault.1, c.calls + 2, ?_, ?_⟩
      · exact (List.prefix_append_right_inj _).mpr (List.take_prefix _ _)
      · dsimp only
        rw [List.append_assoc]
    | none =>
      dsimp only
      cases hflush : faults (c.calls + 2) with
      | some fault =>
        left
        refine ⟨fault.2, putString response, c.calls + 3, List.prefix_rfl, ?_⟩
        dsimp only
        rw [List.take_nil, List.append_nil, List.append_assoc]
        rfl
      | none =>
        right
        dsimp only
        rw [List.append_nil, List.append_assoc]
        rfl

theorem sendResponse_of_none (response : Bytes) (c : Connection σ) :
    sendResponse (fun _ => none) response c =
      (none, { c with sent := c.sent ++ putString response, calls := c.calls + 3 }) := by
  simp only [sendResponse, send, putString, lenPrefixed, List.append_nil, List.append_assoc]

/-- A turn that finds a framed request reads it, and sends the response to it. -/
theorem serveTurn_request {request tail : Bytes} (hsize : WellSized request)
    (h : Reader.upToEnd c.input = (putString request ++ tail, failure)) :
    ∃ input, Reader.upToEnd input = (tail, failure) ∧
      let answer := self.respond P sha256 request approver c.state
      let sent := sendResponse faults answer.1
        { c with input, state := answer.2, allocated := c.allocated ++ [request.length] }
      serveTurn P sha256 self approver isEof faults c =
        (sent.1.map fun error => .error (.write error), sent.2) := by
  have hhead : (beBytes 4 request.length).length = 4 := length_beBytes _ _
  have hcut : putString request ++ tail = beBytes 4 request.length ++ (request ++ tail) := by
    rw [putString, lenPrefixed, List.append_assoc]
  rw [hcut] at h
  obtain ⟨input, hheader, hinput⟩ := @Reader.readExact_of_le _ _ _ 4 h (by
    rw [List.length_append, hhead]
    omega)
  rw [List.take_left' hhead] at hheader
  rw [List.drop_left' hhead] at hinput
  obtain ⟨input', hrequest, hinput'⟩ := @Reader.readExact_of_le _ _ _ request.length hinput (by
    rw [List.length_append]
    omega)
  rw [List.take_left] at hrequest
  rw [List.drop_left] at hinput'
  refine ⟨input', hinput', ?_⟩
  have hrange : ¬(request.length = 0 ∨ request.length > maxMessage) := by
    have hmax := hsize.2
    have hmin := hsize.1
    omega
  unfold serveTurn
  rw [hheader]
  dsimp only
  rw [ofBe_beBytes_length hsize.2, if_neg hrange, hrequest]
  dsimp only
  split
  next heq => rw [heq]; rfl
  next heq => rw [heq]; rfl

/-! ## The end of a connection -/

/-- What can follow the last request that is framed well. -/
inductive Ending where
  /-- Nothing, or a part of a length. -/
  | hangUp
  /-- A length, and fewer bytes than it says. -/
  | cut (length : ℕ)
  /-- A length that no request may have. -/
  | outOfRange (length : ℕ)

namespace Ending

/-- The bytes that end a connection in this way. -/
def Fits (rest : Bytes) : Ending → Prop
  | .hangUp => rest.length < 4
  | .cut length => ∃ part, rest = beBytes 4 length ++ part ∧ 1 ≤ length ∧ length ≤ maxMessage ∧
      part.length < length
  | .outOfRange length => ∃ after, rest = beBytes 4 length ++ after ∧ length < 2 ^ 32 ∧
      (length = 0 ∨ maxMessage < length)

/-- How the loop ends, where the input ends or fails behind what it handed out. -/
def result (isEof : IoError → Bool) (failure : Option IoError) : Ending → Except ServeError Unit
  | .hangUp =>
    match failure with
    | none => .ok ()
    | some error => if isEof error then .ok () else .error (.read (.io error))
  | .cut _ => .error (.read (failure.elim .unexpectedEof .io))
  | .outOfRange length => .error (.outOfRange length)

/-- What is allocated for a request that does not arrive. -/
def allocated : Ending → List ℕ
  | .hangUp => []
  | .cut length => [length]
  | .outOfRange _ => []

end Ending

/-- Every input is framed requests and an ending. -/
theorem exists_frames (bytes : Bytes) :
    ∃ (requests : List Bytes) (rest : Bytes) (ending : Ending),
      bytes = requests.flatMap putString ++ rest ∧ (∀ request ∈ requests, WellSized request) ∧
        Ending.Fits rest ending := by
  induction hn : bytes.length using Nat.strong_induction_on generalizing bytes with
  | _ n ih =>
    by_cases hshort : bytes.length < 4
    · exact ⟨[], bytes, .hangUp, rfl, by simp, hshort⟩
    · have hfour : (bytes.take 4).length = 4 := List.length_take_of_le (by omega)
      have hbytes : bytes = beBytes 4 (ofBe (bytes.take 4)) ++ bytes.drop 4 := by
        rw [beBytes_ofBe hfour, List.take_append_drop]
      have hlt : ofBe (bytes.take 4) < 2 ^ 32 := by
        have := ofBe_lt (bytes.take 4)
        rwa [hfour] at this
      generalize ofBe (bytes.take 4) = length at hbytes hlt
      by_cases hrange : length = 0 ∨ maxMessage < length
      · exact ⟨[], bytes, .outOfRange length, rfl, by simp, bytes.drop 4, hbytes, hlt, hrange⟩
      · by_cases hcut : (bytes.drop 4).length < length
        · exact ⟨[], bytes, .cut length, rfl, by simp, bytes.drop 4, hbytes, by omega, by omega, hcut⟩
        · have hrequest : ((bytes.drop 4).take length).length = length :=
            List.length_take_of_le (Nat.le_of_not_lt hcut)
          have hfirst : bytes = putString ((bytes.drop 4).take length) ++
              (bytes.drop 4).drop length := by
            rw [putString, lenPrefixed, hrequest, List.append_assoc, List.take_append_drop]
            exact hbytes
          obtain ⟨requests, rest, ending, hmore, hsizes, hfits⟩ :=
            ih ((bytes.drop 4).drop length).length (by
              rw [List.length_drop, List.length_drop]
              omega) _ rfl
          refine ⟨(bytes.drop 4).take length :: requests, rest, ending, ?_, ?_, hfits⟩
          · rw [List.flatMap_cons, List.append_assoc, ← hmore]
            exact hfirst
          · intro request hmem
            rcases List.mem_cons.mp hmem with rfl | hmem
            · constructor
              · rw [hrequest]
                omega
              · rw [hrequest]
                omega
            · exact hsizes request hmem

/-- The last turn. It sends nothing; where the length is out of range, it reads nothing behind
it. -/
theorem serveTurn_ending {rest : Bytes} {ending : Ending} (hfits : Ending.Fits rest ending)
    (h : Reader.upToEnd c.input = (rest, failure)) :
    ∃ input, serveTurn P sha256 self approver isEof faults c =
        (some (ending.result isEof failure),
          { c with input, allocated := c.allocated ++ ending.allocated }) ∧
      ∀ length, ending = .outOfRange length → Reader.upToEnd input = (rest.drop 4, failure) := by
  -- the length, where there is one, and the reader behind it
  have hlength : ∀ {length : ℕ} {after : Bytes}, length < 2 ^ 32 → rest = beBytes 4 length ++ after →
      ∃ input, c.input.readExact 4 = (.ok (beBytes 4 length), input) ∧
        Reader.upToEnd input = (after, failure) ∧ ofBe (beBytes 4 length) = length := by
    rintro length after hlt rfl
    have hhead : (beBytes 4 length).length = 4 := length_beBytes _ _
    obtain ⟨input, hread, hinput⟩ := @Reader.readExact_of_le _ _ _ 4 h (by
      rw [List.length_append, hhead]
      omega)
    rw [List.take_left' hhead] at hread
    rw [List.drop_left' hhead] at hinput
    exact ⟨input, hread, hinput, ofBe_beBytes hlt⟩
  unfold serveTurn
  cases ending with
  | hangUp =>
    have hread := @Reader.readExact_of_lt _ _ _ 4 h hfits
    rcases hresult : c.input.readExact 4 with ⟨result, input⟩
    rw [hresult] at hread
    dsimp only at hread
    rw [hread]
    refine ⟨input, ?_, by simp⟩
    rw [Ending.allocated, List.append_nil]
    cases failure <;> rfl
  | cut length =>
    obtain ⟨part, hrest, hmin, hmax, hshort⟩ := hfits
    have hlimit : maxMessage < 2 ^ 32 := by decide
    obtain ⟨input, hheader, hinput, hvalue⟩ := hlength (by omega) hrest
    have hread := @Reader.readExact_of_lt _ _ _ length hinput hshort
    rcases hresult : input.readExact length with ⟨result, input'⟩
    rw [hresult] at hread
    dsimp only at hread
    rw [hheader]
    dsimp only
    rw [hvalue, if_neg (by omega), hresult, hread]
    exact ⟨input', rfl, by simp⟩
  | outOfRange length =>
    obtain ⟨after, hrest, hlt, hrange⟩ := hfits
    obtain ⟨input, hheader, hinput, hvalue⟩ := hlength hlt hrest
    have hrest : rest.drop 4 = after := by
      rw [hrest]
      exact List.drop_left' (length_beBytes _ _)
    rw [hheader]
    dsimp only
    rw [hvalue, if_pos hrange]
    refine ⟨input, ?_, ?_⟩
    · rw [Ending.allocated, List.append_nil]
      rfl
    · intro _ _
      rw [hrest]
      exact hinput

/-! ## The run of a connection -/

variable (P sha256 self approver) in
/-- The responses to requests that are answered one after another. -/
def respondAll : List Bytes → σ → List Bytes × σ
  | [], s => ([], s)
  | request :: requests, s =>
    let (response, s) := self.respond P sha256 request approver s
    let (responses, s) := respondAll requests s
    (response :: responses, s)

/-- Where the writer does not fail, every request is answered, in order. -/
theorem serve_frames {requests : List Bytes} {rest : Bytes} {ending : Ending}
    (hsizes : ∀ request ∈ requests, WellSized request) (hfits : Ending.Fits rest ending)
    (h : Reader.upToEnd c.input = (requests.flatMap putString ++ rest, failure)) :
    let answers := respondAll P sha256 self approver requests c.state
    ∃ input calls, serve P sha256 self approver isEof (fun _ => none) c =
        (ending.result isEof failure,
          { input, state := answers.2, sent := c.sent ++ answers.1.flatMap putString, calls,
            allocated := c.allocated ++ (requests.map List.length ++ ending.allocated) }) ∧
      ∀ length, ending = .outOfRange length → Reader.upToEnd input = (rest.drop 4, failure) := by
  induction requests generalizing c with
  | nil =>
    rw [List.flatMap_nil, List.nil_append] at h
    obtain ⟨input, hturn, hbehind⟩ := @serveTurn_ending P sha256 _ self approver isEof
      (fun _ => none) c failure rest ending hfits h
    refine ⟨input, c.calls, ?_, hbehind⟩
    rw [serve_of_stop hturn, List.map_nil, List.nil_append]
    show _ = (_, { c with input, sent := c.sent ++ [], allocated := _ })
    rw [List.append_nil]
  | cons request requests ih =>
    rw [List.flatMap_cons, List.append_assoc] at h
    obtain ⟨input, hinput, hturn⟩ := @serveTurn_request P sha256 _ self approver isEof
      (fun _ => none) c failure request _ (hsizes request List.mem_cons_self) h
    dsimp only at hturn
    rw [sendResponse_of_none] at hturn
    obtain ⟨input', calls, hserve, hbehind⟩ := @ih
      { c with
        input, state := (self.respond P sha256 request approver c.state).2
        sent := c.sent ++ putString (self.respond P sha256 request approver c.state).1
        calls := c.calls + 3, allocated := c.allocated ++ [request.length] }
      (fun r hr => hsizes r (List.mem_cons_of_mem _ hr)) hinput
    refine ⟨input', calls, ?_, hbehind⟩
    rw [serve_of_again hturn, hserve]
    simp only [respondAll, List.flatMap_cons, List.map_cons, List.append_assoc, List.cons_append,
      List.nil_append]

/-- Whatever the writer does: an initial part of the responses is sent, all of them if the loop
ends without an error, and only lengths within the bound are allocated. -/
theorem serve_requests {requests : List Bytes} {rest : Bytes} {ending : Ending}
    (hsizes : ∀ request ∈ requests, WellSized request) (hfits : Ending.Fits rest ending)
    (h : Reader.upToEnd c.input = (requests.flatMap putString ++ rest, failure)) :
    let run := serve P sha256 self approver isEof faults c
    let responses := (respondAll P sha256 self approver requests c.state).1
    (∃ part, part <+: responses.flatMap putString ∧ run.2.sent = c.sent ++ part ∧
      (run.1 = .ok () → part = responses.flatMap putString)) ∧
    ∀ length ∈ run.2.allocated, length ∈ c.allocated ∨ (1 ≤ length ∧ length ≤ maxMessage) := by
  induction requests generalizing c with
  | nil =>
    rw [List.flatMap_nil, List.nil_append] at h
    obtain ⟨input, hturn, -⟩ := @serveTurn_ending P sha256 _ self approver isEof faults c failure rest
      ending hfits h
    rw [serve_of_stop hturn]
    refine ⟨⟨[], List.prefix_rfl, (List.append_nil _).symm, fun _ => rfl⟩, ?_⟩
    intro length hlength
    rcases List.mem_append.mp hlength with hold | hnew
    · exact Or.inl hold
    · right
      cases ending with
      | hangUp => cases hnew
      | cut n =>
        obtain ⟨_, -, hmin, hmax, -⟩ := hfits
        rw [List.mem_singleton.mp hnew]
        exact ⟨hmin, hmax⟩
      | outOfRange n => cases hnew
  | cons request requests ih =>
    have hsize := hsizes request List.mem_cons_self
    rw [List.flatMap_cons, List.append_assoc] at h
    obtain ⟨input, hinput, hturn⟩ := @serveTurn_request P sha256 _ self approver isEof faults c
      failure request _ hsize h
    dsimp only at hturn
    -- the responses to the rest, behind this one
    have hall : (respondAll P sha256 self approver (request :: requests) c.state).1.flatMap putString =
        putString (self.respond P sha256 request approver c.state).1 ++
          (respondAll P sha256 self approver requests
            (self.respond P sha256 request approver c.state).2).1.flatMap putString := rfl
    have hmem : ∀ length ∈ c.allocated ++ [request.length],
        length ∈ c.allocated ∨ (1 ≤ length ∧ length ≤ maxMessage) := by
      intro length hlength
      rcases List.mem_append.mp hlength with hold | hnew
      · exact Or.inl hold
      · right
        rw [List.mem_singleton.mp hnew]
        exact hsize
    dsimp only
    rw [hall]
    rcases sendResponse_cases faults (self.respond P sha256 request approver c.state).1
        { c with
          input, state := (self.respond P sha256 request approver c.state).2
          allocated := c.allocated ++ [request.length] } with
      ⟨error, part, calls, hpart, hsent⟩ | hsent
    · rw [hsent] at hturn
      rw [serve_of_stop hturn]
      exact ⟨⟨part, hpart.trans (List.prefix_append _ _), rfl, fun hok => by cases hok⟩, hmem⟩
    · rw [hsent] at hturn
      rw [serve_of_again hturn]
      obtain ⟨⟨part, hpart, hrun, hwhole⟩, hallocated⟩ := @ih
        { c with
          input, state := (self.respond P sha256 request approver c.state).2
          sent := c.sent ++ putString (self.respond P sha256 request approver c.state).1
          calls := c.calls + 3, allocated := c.allocated ++ [request.length] }
        (fun r hr => hsizes r (List.mem_cons_of_mem _ hr)) hinput
      refine ⟨⟨putString (self.respond P sha256 request approver c.state).1 ++ part, ?_, ?_, ?_⟩, ?_⟩
      · exact (List.prefix_append_right_inj _).mpr hpart
      · rw [hrun, List.append_assoc]
      · intro hok
        rw [hwhole hok]
      · intro length hlength
        rcases hallocated length hlength with hold | hnew
        · exact hmem length hold
        · exact Or.inr hnew

end

/-! ## What is signed -/

section
variable {P : Sign.Primitives} {sha256 : Bytes → Vector UInt8 32} {σ : Type} {self : Agent}

/-- An approver whose questions are written down. -/
def logged (approver : Approver σ) : Approver (σ × List String) := fun s fingerprint =>
  let (approved, state) := approver s.1 fingerprint
  (approved, (state, s.2 ++ [fingerprint]))

/-- A signature as OpenSSH expects it: the algorithm and the 64 bytes, in a string. -/
def signResponseOf (signature : Vector UInt8 64) : Bytes :=
  14 :: (beBytes 4 83 ++ (beBytes 4 11 ++ utf8 "ssh-ed25519" ++
    (beBytes 4 64 ++ signature.toList)))

theorem signed_eq (self : Agent) (data : Bytes) :
    self.signed P data = signResponseOf (P.edSign self.key data) := by
  have htype : (utf8 keyType).length = 11 := by decide
  have hsignature : (P.edSign self.key data).toList.length = 64 := Vector.length_toList
  have hblob : (putString (utf8 keyType) ++ putString (P.edSign self.key data).toList).length =
      83 := by
    simp only [putString, lenPrefixed, List.length_append, length_beBytes, htype, hsignature]
  unfold signed
  rw [putString, lenPrefixed, hblob]
  simp only [putString, lenPrefixed, htype, hsignature]
  rfl

/-- A request for the agent's own key is put to the approver once, and its verdict decides. -/
theorem respond_logged {request data : Bytes} (h : self.IsSignRequest request data)
    (approver : Approver σ) (s : σ) (log : List String) :
    let verdict := approver s (fingerprint sha256 self.publicKey)
    self.respond P sha256 request (logged approver) (s, log) =
      (if verdict.1 = true then signResponseOf (P.edSign self.key data) else [failure],
        (verdict.2, log ++ [fingerprint sha256 self.publicKey])) := by
  obtain ⟨body, rest, rfl, hread⟩ := isSignRequest_iff.mp h
  have hkind : signRequest ≠ requestIdentities := by decide
  dsimp only
  rw [← signed_eq]
  cases hverdict : (approver s (fingerprint sha256 self.publicKey)).1 with
  | true => simp [respond, tryRespond, hkind, sign, hread, logged, hverdict]
  | false => simp [respond, tryRespond, hkind, sign, hread, logged, hverdict]

/-- Nothing else is signed, and the approver does not hear of it. -/
theorem respond_unasked {request : Bytes} (h : ¬∃ data, self.IsSignRequest request data)
    (approver : Approver σ) (s : σ) :
    self.respond P sha256 request approver s =
      (if request.head? = some requestIdentities then self.identities else [failure], s) := by
  cases request with
  | nil => rfl
  | cons kind body =>
    unfold respond tryRespond
    by_cases hlist : kind = requestIdentities
    · simp [hlist]
    · by_cases hsign : kind = signRequest
      · have hrefused : ∃ e, self.sign P sha256 body approver s = (.error e, s) := by
          unfold sign
          cases hread : readSignRequest body with
          | error e => exact ⟨e, rfl⟩
          | ok parsed =>
            obtain ⟨⟨requested, data⟩, rest⟩ := parsed
            have hother : requested ≠ publicKeyBlob self.publicKey := by
              rintro rfl
              exact h ⟨data, isSignRequest_iff.mpr ⟨body, rest, by rw [hsign], hread⟩⟩
            exact ⟨_, if_pos hother⟩
        obtain ⟨e, hrefused⟩ := hrefused
        have hkind : signRequest ≠ requestIdentities := by decide
        simp [hsign, hkind, hrefused]
      · simp [hlist, hsign]

/-- **The agent signs approved requests for its own key, and nothing else**; and it serves every
request that a stream frames well, in order, until the stream ends or frames one wrong. -/
theorem agent_exact (P : Sign.Primitives) (sha256 : Bytes → Vector UInt8 32) (self : Agent)
    (approver : Approver σ) :
    (∀ request s log,
      let verdict := approver s (fingerprint sha256 self.publicKey)
      let answer := self.respond P sha256 request (logged approver) (s, log)
      (answer.1.head? = some signResponse ↔
        ∃ data, self.IsSignRequest request data ∧ verdict.1 = true) ∧
      (∀ data, self.IsSignRequest request data → answer =
        (if verdict.1 = true then signResponseOf (P.edSign self.key data) else [failure],
          (verdict.2, log ++ [fingerprint sha256 self.publicKey]))) ∧
      ((¬∃ data, self.IsSignRequest request data) → answer =
        (if request.head? = some requestIdentities then self.identities else [failure],
          (s, log)))) ∧
    (∀ bytes : Bytes, ∃ (requests : List Bytes) (rest : Bytes) (ending : Ending),
      bytes = requests.flatMap putString ++ rest ∧ (∀ request ∈ requests, WellSized request) ∧
        Ending.Fits rest ending) ∧
    ∀ (reader : Reader) (s : σ) (isEof : IoError → Bool) (requests : List Bytes) (rest : Bytes)
      (failure : Option IoError) (ending : Ending),
      Reader.upToEnd reader = (requests.flatMap putString ++ rest, failure) →
      (∀ request ∈ requests, WellSized request) → Ending.Fits rest ending →
      let answers := respondAll P sha256 self approver requests s
      (∃ input calls, serve P sha256 self approver isEof (fun _ => none) ⟨reader, s, [], 0, []⟩ =
          (ending.result isEof failure,
            ⟨input, answers.2, answers.1.flatMap putString, calls,
              requests.map List.length ++ ending.allocated⟩) ∧
        ∀ length, ending = .outOfRange length →
          Reader.upToEnd input = (rest.drop 4, failure)) ∧
      ∀ faults,
        let run := serve P sha256 self approver isEof faults ⟨reader, s, [], 0, []⟩
        run.2.sent <+: answers.1.flatMap putString ∧
          (run.1 = .ok () → run.2.sent = answers.1.flatMap putString) ∧
          ∀ length ∈ run.2.allocated, 1 ≤ length ∧ length ≤ maxMessage := by
  refine ⟨?_, exists_frames, ?_⟩
  · intro request s log verdict answer
    refine ⟨?_, fun data h => respond_logged h approver s log,
      fun h => respond_unasked h (logged approver) (s, log)⟩
    constructor
    · intro hanswer
      obtain ⟨data, hrequest, happroved⟩ := @isSignRequest_of_respond P sha256 _ self request
        (logged approver) (s, log) hanswer
      exact ⟨data, hrequest, happroved⟩
    · rintro ⟨data, hrequest, happroved⟩
      have hresponse : answer.1 = self.signed P data := respond_of_isSignRequest hrequest happroved
      rw [hresponse]
      rfl
  · intro reader s isEof requests rest failure ending hreader hsizes hfits answers
    refine ⟨?_, ?_⟩
    · exact @serve_frames P sha256 σ self approver isEof ⟨reader, s, [], 0, []⟩ failure requests rest
        ending hsizes hfits hreader
    · intro faults run
      obtain ⟨⟨part, hpart, hsent, hwhole⟩, hallocated⟩ :=
        @serve_requests P sha256 σ self approver isEof faults ⟨reader, s, [], 0, []⟩ failure requests
          rest ending hsizes hfits hreader
      have hsent : run.2.sent = part := hsent
      refine ⟨by rw [hsent]; exact hpart, fun hok => by rw [hsent]; exact hwhole hok, ?_⟩
      intro length hlength
      rcases hallocated length hlength with hold | hnew
      · cases hold
      · exact hnew

/-- An agent of the toy instance. -/
def sampleAgent : Agent := Agent.new .toy ⟨Vector.replicate 32 7⟩ "hide"

/-- One request for a signature, then two bytes of a length; then a request of no bytes. -/
theorem agent_exact_samples :
    let requests := [sampleAgent.requestFor [1, 2, 3]]
    let answers := respondAll .toy (fun _ => Vector.replicate 32 0) sampleAgent approveEverything
      requests ()
    (∃ run, serve .toy (fun _ => Vector.replicate 32 0) sampleAgent approveEverything
        (fun _ => false) (fun _ => none)
        ⟨[.data (requests.flatMap putString ++ [0, 0])], (), [], 0, []⟩ = (.ok (), run) ∧
      run.sent = answers.1.flatMap putString ∧ run.allocated = requests.map List.length) ∧
    (∃ run, serve .toy (fun _ => Vector.replicate 32 0) sampleAgent approveEverything
        (fun _ => false) (fun _ => none) ⟨[.data [0, 0, 0, 0, 9]], (), [], 0, []⟩ =
        (.error (.outOfRange 0), run) ∧ run.allocated = []) := by
  intro requests answers
  have hserve := (agent_exact .toy (fun _ => Vector.replicate 32 0) sampleAgent
    approveEverything).2.2
  refine ⟨?_, ?_⟩
  · have hsizes : ∀ request ∈ requests, WellSized request := by
      intro request hmem
      rw [List.mem_singleton.mp hmem]
      constructor <;> decide
    have hreader : Reader.upToEnd [.data (requests.flatMap putString ++ [0, 0])] =
        (requests.flatMap putString ++ [0, 0], none) := by
      have hne : requests.flatMap putString ++ [0, 0] ≠ [] := by simp
      rw [Reader.upToEnd, if_neg hne]
      show (_ ++ [], none) = _
      rw [List.append_nil]
    obtain ⟨⟨input, calls, hrun, -⟩, -⟩ := hserve _ () (fun _ => false) requests [0, 0] none .hangUp
      hreader hsizes (show [0, 0].length < 4 by decide)
    exact ⟨_, hrun, rfl, List.append_nil _⟩
  · have hfits : Ending.Fits [0, 0, 0, 0, 9] (.outOfRange 0) :=
      ⟨[9], by decide, by decide, Or.inl rfl⟩
    obtain ⟨⟨input, calls, hrun, -⟩, -⟩ := hserve [.data [0, 0, 0, 0, 9]] () (fun _ => false) []
      [0, 0, 0, 0, 9] none (.outOfRange 0) (by decide) (by simp) hfits
    exact ⟨_, hrun, rfl⟩

end

end HideProtocol.Cli.Agent
