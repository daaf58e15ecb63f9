import HideProtocol.Keyring.EpochStoreTheorems
import HideProtocol.Lib.Panics

/-!
# What the store parser accepts

The parser runs before anything is authenticated, on fields at fixed offsets around a body of
declared length. Whatever it accepts is a file as the writer lays it out (`file_of_parse`), and it
slices nothing out of range on the way (`parseSliced_eq`).
-/

namespace HideProtocol.Keyring

open Lib Crypto

/-! ## Argon2 parameters -/

/-- The bounds that key files and stores share. -/
structure Argon2Params.WithinLimits (params : Argon2Params) : Prop where
  lanes : 0 < params.parallelism.toNat ∧ params.parallelism.toNat ≤ maxParallelism
  memory : minMemoryKib ≤ params.memory ∧ params.memory ≤ maxMemoryKib
  iterations : minIterations ≤ params.iterations ∧ params.iterations ≤ maxIterations
  blocks : params.parallelism.toNat ≤ params.memory.toNat / 8

/-- A field of four bytes holds what it is read as. -/
theorem beBytes_ofNat_ofBe {field : Bytes} (h : field.length = 4) :
    beBytes 4 (UInt32.ofNat (ofBe field)).toNat = field := by
  have hlt : ofBe field < 2 ^ 32 := by
    have := ofBe_lt field
    rwa [h] at this
  rw [UInt32.toNat_ofNat_of_lt' hlt, beBytes_ofBe h]

theorem Argon2Params.encode_of_parse {bytes : Bytes} {params : Argon2Params}
    (h : Argon2Params.parse bytes = .ok params) :
    params.encode = bytes ∧ params.WithinLimits := by
  unfold Argon2Params.parse at h
  obtain ⟨fields, hfields, h⟩ := bind_eq_ok.mp h
  obtain ⟨_, hlimits, h⟩ := bind_eq_ok.mp h
  simp only [failIf_eq_ok, not_or, not_not, not_lt] at hlimits
  obtain ⟨hzero, hlanes, hmemory, hiterations, hblocks⟩ := hlimits
  have hbytes := tryInto_eq_some (okOr_eq_ok.mp hfields)
  have hlen : bytes.length = 9 := by
    rw [hbytes]
    exact Vector.length_toList
  rw [← hbytes] at hzero hlanes hmemory hiterations hblocks
  rw [pure_eq_ok.mp h, ← hbytes]
  constructor
  · obtain ⟨first, rest, rfl⟩ := List.exists_cons_of_length_pos (by omega : 0 < bytes.length)
    rw [List.length_cons] at hlen
    have hleft : (rest.take 4).length = 4 := List.length_take_of_le (by omega)
    have hright : ((rest.drop 4).take 4).length = 4 :=
      List.length_take_of_le (by rw [List.length_drop]; omega)
    have htail : (rest.drop 4).take 4 = rest.drop 4 :=
      List.take_of_length_le (by rw [List.length_drop]; omega)
    show first :: (beBytes 4 (UInt32.ofNat (ofBe (rest.take 4))).toNat ++
      beBytes 4 (UInt32.ofNat (ofBe ((rest.drop 4).take 4))).toNat) = first :: rest
    rw [beBytes_ofNat_ofBe hleft, beBytes_ofNat_ofBe hright, htail, List.take_append_drop]
  · exact ⟨⟨Nat.pos_of_ne_zero hzero, hlanes⟩, hmemory, hiterations, hblocks⟩

namespace Store

/-! ## The body -/

theorem entry_of_decodeEntry {previous : Option UInt64} {bytes rest : Bytes} {entry : RawEntry}
    (h : decodeEntry previous bytes = .ok (entry, rest)) :
    (∀ last, previous = some last → last < entry.number) ∧ entry.sealed.length = sealedLen := by
  unfold decodeEntry at h
  obtain ⟨_, _, -, h⟩ := Parser.bind_eq_ok.mp h
  obtain ⟨_, _, -, h⟩ := Parser.bind_eq_ok.mp h
  obtain ⟨number, _, -, h⟩ := Parser.bind_eq_ok.mp h
  obtain ⟨_, _, hascending, h⟩ := Parser.bind_eq_ok.mp h
  obtain ⟨_, _, -, h⟩ := Parser.bind_eq_ok.mp h
  obtain ⟨_, _, -, h⟩ := Parser.bind_eq_ok.mp h
  obtain ⟨sealed, _, -, h⟩ := Parser.bind_eq_ok.mp h
  obtain ⟨_, _, hsealed, h⟩ := Parser.bind_eq_ok.mp h
  have hascending := failIf_eq_ok.mp (Parser.lift_eq_ok.mp hascending).1
  have hsize := not_not.mp (failIf_eq_ok.mp (Parser.lift_eq_ok.mp hsealed).1)
  cases Parser.pure_eq_ok.mp h
  constructor
  · intro last hlast
    rw [hlast] at hascending
    simpa using hascending
  · exact hsize

/-- The loop over the declared count: that many entries, in ascending order. -/
theorem entries_of_decodeEntries {count : ℕ} {previous : Option UInt64} {bytes rest : Bytes}
    {entries : List RawEntry} (h : decodeEntries count previous bytes = .ok (entries, rest)) :
    entries.length = count ∧
      (entries.Pairwise fun a b => a.number < b.number) ∧
      (∀ entry ∈ entries, ∀ last, previous = some last → last < entry.number) ∧
      ∀ entry ∈ entries, entry.sealed.length = sealedLen := by
  induction count generalizing previous bytes entries with
  | zero =>
    cases Parser.pure_eq_ok.mp h
    simp
  | succ count ih =>
    unfold decodeEntries at h
    obtain ⟨entry, after, hentry, h⟩ := Parser.bind_eq_ok.mp h
    obtain ⟨more, _, hmore, h⟩ := Parser.bind_eq_ok.mp h
    cases Parser.pure_eq_ok.mp h
    obtain ⟨hprevious, hsealed⟩ := entry_of_decodeEntry hentry
    obtain ⟨hlen, hascending, hafter, hsizes⟩ := ih hmore
    refine ⟨by rw [List.length_cons, hlen], ?_, ?_, ?_⟩
    · apply List.pairwise_cons.mpr
      exact ⟨fun next hnext => hafter next hnext _ rfl, hascending⟩
    · intro next hnext last hlast
      rcases List.mem_cons.mp hnext with rfl | hnext
      · exact hprevious last hlast
      · exact UInt64.lt_trans (hprevious last hlast) (hafter next hnext _ rfl)
    · intro next hnext
      rcases List.mem_cons.mp hnext with rfl | hnext
      · exact hsealed
      · exact hsizes next hnext

theorem body_of_decodeBody {body : Bytes} {entries : List RawEntry}
    (h : decodeBody body = .ok entries) :
    encodeBody entries = body ∧ entries.length ≤ maxEntries ∧
      entries.Pairwise fun a b => a.number < b.number := by
  unfold decodeBody at h
  obtain ⟨⟨found, rest⟩, harray, h⟩ := bind_eq_ok.mp h
  obtain ⟨_, -, h⟩ := bind_eq_ok.mp h
  obtain ⟨_, hcanonical, h⟩ := bind_eq_ok.mp h
  have hcanonical := not_not.mp (failIf_eq_ok.mp hcanonical)
  cases pure_eq_ok.mp h
  unfold decodeArray at harray
  obtain ⟨declared, _, -, harray⟩ := Parser.bind_eq_ok.mp harray
  obtain ⟨count, _, -, harray⟩ := Parser.bind_eq_ok.mp harray
  obtain ⟨_, _, hcount, harray⟩ := Parser.bind_eq_ok.mp harray
  have hcount := not_lt.mp (failIf_eq_ok.mp (Parser.lift_eq_ok.mp hcount).1)
  obtain ⟨hlen, hascending, -, -⟩ := entries_of_decodeEntries harray
  exact ⟨hcanonical, hlen.trans_le hcount, hascending⟩

/-! ## The file -/

/-- The bytes from an offset on, cut once more. -/
theorem drop_eq_field (bytes : Bytes) (start n : ℕ) :
    bytes.drop start = (bytes.drop start).take n ++ bytes.drop (start + n) := by
  rw [← List.drop_drop, List.take_append_drop]

/-- The magic and the version byte behind it. -/
theorem take_magic {bytes : Bytes} (hmagic : magic.isPrefixOf bytes = true)
    (hversion : bytes[8]? = some version) : bytes.take paramsAt = magic ++ [version] := by
  have hlen : magic.length = 8 := by decide
  obtain ⟨rest, rfl⟩ := List.isPrefixOf_iff_prefix.mp hmagic
  rw [← hlen, List.getElem?_append_right le_rfl, Nat.sub_self] at hversion
  obtain ⟨_, rest, rfl⟩ := List.exists_cons_of_length_pos (List.getElem?_eq_some_iff.mp hversion).1
  cases hversion
  have hfront : (magic ++ [version]).length = paramsAt := by decide
  rw [← List.singleton_append, ← List.append_assoc, List.take_left' hfront]

/-- What is parsed is a file with the parsed fields. -/
theorem file_of_parse {bytes : Bytes} {layout : Layout} (h : parse bytes = .ok layout) :
    bytes = file layout.params layout.salt layout.chainHead (encodeBody layout.entries)
        layout.trailerNonce layout.trailerTag ∧
      layout.header = bytes.take headerLen ∧
      layout.bodyLen = (encodeBody layout.entries).length ∧
      layout.trailerTag.length = tagLen ∧
      layout.bodyLen ≤ maxBodyLen ∧ layout.entries.length ≤ maxEntries ∧
      (layout.entries.Pairwise fun a b => a.number < b.number) ∧ layout.params.WithinLimits := by
  have htag := (parse_trailer h).1
  unfold parse at h
  simp only [bind_eq_ok, failIf_eq_ok, okOr_eq_ok, pure_eq_ok] at h
  obtain ⟨_, hmagic, _, -, found, hfound, _, hversion, _, hlong, params, hparams, salt, hsalt,
    chainHead, hhead, _, hmax, _, hlen, entries, hentries, trailerNonce, hnonce, rfl⟩ := h
  have hmagic : magic.isPrefixOf bytes = true := by simpa using hmagic
  have hversion := not_not.mp hversion
  subst hversion
  have hlen := not_not.mp hlen
  obtain ⟨hparams, hlimits⟩ := Argon2Params.encode_of_parse hparams
  obtain ⟨hbody, hcount, hascending⟩ := body_of_decodeBody hentries
  have hsalt := tryInto_eq_some hsalt
  have hhead := tryInto_eq_some hhead
  have hnonce := tryInto_eq_some hnonce
  -- the length field is the length of the body, since the body re-encodes to itself
  have hfour : ((bytes.drop bodyLenAt).take 4).length = 4 := by
    rw [List.length_take_of_le]
    rw [List.length_drop, hlen]
    show 4 ≤ headerLen + _ + trailerLen - bodyLenAt
    have hheader : headerLen = bodyLenAt + 4 := rfl
    omega
  have hbodyLen : (encodeBody entries).length = ofBe ((bytes.drop bodyLenAt).take 4) := by
    rw [hbody, List.length_take_of_le]
    rw [List.length_drop, hlen]
    omega
  refine ⟨?_, rfl, hbodyLen.symm, htag, not_lt.mp hmax, hcount, hascending, hlimits⟩
  show bytes = encodeHeader params salt chainHead (beBytes 4 (encodeBody entries).length) ++
    encodeBody entries ++ trailerNonce.toList ++ _
  rw [hbodyLen, beBytes_ofBe hfour, encodeHeader, hparams, ← hsalt, ← hhead, ← hnonce, hbody,
    ← take_magic hmagic hfound]
  -- the header, one field after the other
  have hparamsCut : bytes.drop paramsAt =
      (bytes.drop paramsAt).take Argon2Params.paramsLen ++ bytes.drop saltAt := drop_eq_field ..
  have hsaltCut : bytes.drop saltAt = (bytes.drop saltAt).take saltLen ++ bytes.drop headAt :=
    drop_eq_field ..
  have hheadCut : bytes.drop headAt = (bytes.drop headAt).take headLen ++ bytes.drop bodyLenAt :=
    drop_eq_field ..
  have hbodyLenCut : bytes.drop bodyLenAt =
      (bytes.drop bodyLenAt).take 4 ++ bytes.drop headerLen := drop_eq_field ..
  calc bytes = bytes.take paramsAt ++ bytes.drop paramsAt := (List.take_append_drop _ _).symm
    _ = bytes.take paramsAt ++ ((bytes.drop paramsAt).take Argon2Params.paramsLen ++
        bytes.drop saltAt) := congrArg _ hparamsCut
    _ = bytes.take paramsAt ++ ((bytes.drop paramsAt).take Argon2Params.paramsLen ++
        ((bytes.drop saltAt).take saltLen ++ bytes.drop headAt)) :=
      congrArg (fun rest => _ ++ (_ ++ rest)) hsaltCut
    _ = bytes.take paramsAt ++ ((bytes.drop paramsAt).take Argon2Params.paramsLen ++
        ((bytes.drop saltAt).take saltLen ++ ((bytes.drop headAt).take headLen ++
          bytes.drop bodyLenAt))) := congrArg (fun rest => _ ++ (_ ++ (_ ++ rest))) hheadCut
    _ = bytes.take paramsAt ++ ((bytes.drop paramsAt).take Argon2Params.paramsLen ++
        ((bytes.drop saltAt).take saltLen ++ ((bytes.drop headAt).take headLen ++
          ((bytes.drop bodyLenAt).take 4 ++ bytes.drop headerLen)))) :=
      congrArg (fun rest => _ ++ (_ ++ (_ ++ (_ ++ rest)))) hbodyLenCut
    _ = _ := by
      simp only [List.append_assoc, List.take_append_drop]

/-- The body whose entries are returned. -/
theorem body_of_parse {bytes : Bytes} {layout : Layout} (h : parse bytes = .ok layout) :
    ∃ body, decodeBody body = .ok layout.entries := by
  unfold parse at h
  simp only [bind_eq_ok, pure_eq_ok] at h
  obtain ⟨_, -, _, -, _, -, _, -, _, -, _, -, _, -, _, -, _, -, _, -, _, hentries, _, -, rfl⟩ := h
  exact ⟨_, hentries⟩

/-- A file that is accepted is written again as it was. -/
theorem reencode_of_parse {bytes : Bytes} {layout : Layout} (h : parse bytes = .ok layout) :
    reencodeUnauthenticated bytes = .ok bytes := by
  obtain ⟨hfile, -, hbodyLen, -, hmax, -⟩ := file_of_parse h
  have hfits : maxBodyLen < 2 ^ 32 := by decide
  unfold reencodeUnauthenticated
  rw [h, ok_bind]
  simp only []
  rw [failIf_neg _ (by omega), ok_bind]
  exact congrArg Except.ok hfile.symm

/-! ## Slices -/

/-- The parser as the source slices its input. -/
def parseSliced (bytes : Bytes) : Panics KeyringError Layout := do
  Panics.returns (failIf (!magic.isPrefixOf bytes) .notAnEpochStore)
  Panics.returns (failIf (bytes.length > maxFileLen) .malformed)
  let found ← Panics.returns (okOr bytes[8]? .malformed)
  Panics.returns (failIf (found ≠ version) (.unsupportedVersion found))
  Panics.returns (failIf (bytes.length < headerLen + trailerLen) .malformed)
  let params ← Panics.slice bytes paramsAt saltAt
  let params ← Panics.returns (Argon2Params.parse params)
  let salt ← Panics.slice bytes saltAt headAt
  let salt ← Panics.returns (okOr (tryInto saltLen salt) .malformed)
  let chainHead ← Panics.slice bytes headAt bodyLenAt
  let chainHead ← Panics.returns (okOr (tryInto headLen chainHead) .malformed)
  let declared ← Panics.slice bytes bodyLenAt headerLen
  let declared ← Panics.returns (okOr (tryInto 4 declared) .malformed)
  let bodyLen := ofBe declared.toList
  Panics.returns (failIf (bodyLen > maxBodyLen) .malformed)
  Panics.returns (failIf (bytes.length ≠ headerLen + bodyLen + trailerLen) .malformed)
  let (header, rest) ← Panics.splitAt headerLen bytes
  let (body, trailer) ← Panics.splitAt bodyLen rest
  let (trailerNonce, trailerTag) ← Panics.splitAt nonceLen trailer
  let entries ← Panics.returns (decodeBody body)
  let trailerNonce ← Panics.returns (okOr (tryInto nonceLen trailerNonce) .malformed)
  pure { params, salt, chainHead, header, bodyLen, entries, trailerNonce, trailerTag }

/-- No slice is out of range, whatever the input. -/
theorem parseSliced_eq (bytes : Bytes) : parseSliced bytes = Panics.returns (parse bytes) := by
  -- the fields' offsets and widths
  have hheader : headerLen = bodyLenAt + 4 := rfl
  have hbodyLenAt : bodyLenAt = headAt + headLen := rfl
  have hheadAt : headAt = saltAt + saltLen := rfl
  have hsaltAt : saltAt = paramsAt + Argon2Params.paramsLen := rfl
  have htrailer : trailerLen = nonceLen + tagLen := rfl
  have hparams : saltAt - paramsAt = Argon2Params.paramsLen := rfl
  have hsalt : headAt - saltAt = saltLen := rfl
  have hhead : bodyLenAt - headAt = headLen := rfl
  have hfour : headerLen - bodyLenAt = 4 := rfl
  unfold parseSliced parse
  apply Panics.bind_returns
  intro _ _
  apply Panics.bind_returns
  intro _ _
  apply Panics.bind_returns
  intro found _
  apply Panics.bind_returns
  intro _ _
  apply Panics.bind_returns
  intro _ hlong
  have hlong := not_lt.mp (failIf_eq_ok.mp hlong)
  rw [Panics.slice_of_le (by omega) (by omega), Panics.returns_ok_bind, hparams]
  apply Panics.bind_returns
  intro params _
  rw [Panics.slice_of_le (by omega) (by omega), Panics.returns_ok_bind, hsalt]
  apply Panics.bind_returns
  intro salt _
  rw [Panics.slice_of_le (by omega) (by omega), Panics.returns_ok_bind, hhead]
  apply Panics.bind_returns
  intro chainHead _
  rw [Panics.slice_of_le (by omega) (by omega), Panics.returns_ok_bind, hfour]
  have hdeclared : ((bytes.drop bodyLenAt).take 4).length = 4 :=
    List.length_take_of_le (by rw [List.length_drop]; omega)
  obtain ⟨declared, hdeclared⟩ := exists_vector hdeclared
  rw [← hdeclared, tryInto_toList, okOr, Panics.returns_ok_bind]
  apply Panics.bind_returns
  intro _ _
  apply Panics.bind_returns
  intro _ hlen
  have hlen := not_not.mp (failIf_eq_ok.mp hlen)
  have hrest : (bytes.drop headerLen).length = ofBe declared.toList + trailerLen := by
    rw [List.length_drop, hlen]
    omega
  have hafter : ((bytes.drop headerLen).drop (ofBe declared.toList)).length = trailerLen := by
    rw [List.length_drop, hrest]
    omega
  rw [Panics.splitAt_of_le (by omega), Panics.returns_ok_bind]
  simp only []
  rw [Panics.splitAt_of_le (by omega), Panics.returns_ok_bind]
  simp only []
  rw [Panics.splitAt_of_le (by omega), Panics.returns_ok_bind]
  apply Panics.bind_returns
  intro entries _
  apply Panics.bind_returns
  intro trailerNonce _
  rfl

/-! ## Accepted bytes -/

/-- The header, the body and the trailer of a parsed file, and nothing else. -/
structure Layout.Cuts (layout : Layout) (bytes body trailer : Bytes) : Prop where
  whole : bytes = layout.header ++ body ++ trailer
  headerLen : layout.header.length = Store.headerLen
  bodyLen : body.length = layout.bodyLen
  trailerLen : trailer.length = Store.trailerLen
  entries : decodeBody body = .ok layout.entries
  nonceAndTag : trailer = layout.trailerNonce.toList ++ layout.trailerTag

/-- The bounds on what a header and a body declare. -/
structure Layout.WithinLimits (layout : Layout) : Prop where
  body : layout.bodyLen ≤ maxBodyLen
  entries : layout.entries.length ≤ maxEntries
  params : layout.params.WithinLimits

theorem cuts_of_parse {bytes : Bytes} {layout : Layout} (h : parse bytes = .ok layout) :
    layout.Cuts bytes (encodeBody layout.entries)
      (layout.trailerNonce.toList ++ layout.trailerTag) := by
  obtain ⟨hfile, hheader, hbodyLen, htag, -, -, -, -⟩ := file_of_parse h
  have hlen : (encodeHeader layout.params layout.salt layout.chainHead
      (beBytes 4 (encodeBody layout.entries).length)).length = headerLen :=
    length_encodeHeader (length_beBytes _ _)
  have hparts : bytes = encodeHeader layout.params layout.salt layout.chainHead
        (beBytes 4 (encodeBody layout.entries).length) ++
      (encodeBody layout.entries ++ (layout.trailerNonce.toList ++ layout.trailerTag)) := by
    rw [hfile, file]
    simp only [List.append_assoc]
  have hheader : layout.header = encodeHeader layout.params layout.salt layout.chainHead
      (beBytes 4 (encodeBody layout.entries).length) := by
    rw [hheader, hparts, List.take_left' hlen]
  refine ⟨?_, by rw [hheader, hlen], hbodyLen.symm, ?_, ?_, rfl⟩
  · rw [hheader, List.append_assoc]
    exact hparts
  · rw [List.length_append, Vector.length_toList, htag]
    rfl
  · obtain ⟨body, hbody⟩ := body_of_parse h
    rw [(body_of_decodeBody hbody).1]
    exact hbody

/-- The parser accepts only what the writer lays out: the bytes encode again as they were, with
ascending entries and every declared value within its limits. No slice it takes is out of range. -/
theorem parse_exact (bytes : Bytes) :
    parseSliced bytes = Panics.returns (parse bytes) ∧
      ∀ layout, parse bytes = .ok layout →
        reencodeUnauthenticated bytes = .ok bytes ∧
        (layout.entries.Pairwise fun a b => a.number < b.number) ∧
        (∃ body trailer, layout.Cuts bytes body trailer) ∧ layout.WithinLimits := by
  refine ⟨parseSliced_eq bytes, ?_⟩
  intro layout h
  obtain ⟨-, -, -, -, hmax, hcount, hascending, hlimits⟩ := file_of_parse h
  exact ⟨reencode_of_parse h, hascending, ⟨_, _, cuts_of_parse h⟩, hmax, hcount, hlimits⟩

/-- The theorem at the file of a store with a number of every width. The entries of the body keep
the order of the store, and each holds a sealed seed. -/
theorem parse_exact_every_width :
    ∃ file layout, sampleSealRun.result openKeyring = .ok file ∧ parse file = .ok layout ∧
      layout.entries.map RawEntry.number = [3, 200, 60000, 4000000000, 1099511627776] ∧
      (∀ entry ∈ layout.entries, entry.sealed.length = sealedLen) ∧
      parseSliced file = Panics.returns (parse file) ∧
      reencodeUnauthenticated file = .ok file ∧
      (layout.entries.Pairwise fun a b => a.number < b.number) ∧
      (∃ body trailer, layout.Cuts file body trailer) ∧ layout.WithinLimits := by
  obtain ⟨s, hgoes⟩ := @SealRun.exists_goes openKeyring sampleSealRun sampleKeyring_seals (by decide)
    (by decide) fun _ => ⟨_, rfl⟩
  have hparse := hgoes.parse_eq_ok (hgoes.trailer sampleKeyring_seals).1
  have hresult := SealRun.result_eq_ok.mpr ⟨s, hgoes, rfl⟩
  obtain ⟨hsliced, haccepted⟩ := parse_exact (sampleSealRun.header s ++ sampleSealRun.body s ++
    s.trailerNonce.toList ++ s.tag)
  refine ⟨_, _, hresult, hparse, ?_, ?_, hsliced, haccepted _ hparse⟩
  · have hnumbers := congrArg (List.map Prod.fst) hgoes.entries
    rw [List.map_map] at hnumbers
    show (List.map _ (List.map _ _)) = _
    rw [List.map_map]
    exact hnumbers
  · intro entry hentry
    obtain ⟨item, -, rfl⟩ := List.mem_map.mp hentry
    exact SealRun.length_rawItem item

end Store

end HideProtocol.Keyring
