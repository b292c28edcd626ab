import PeerNet.Proofs.Codec.Payload
import PeerNet.UserAgent

/-!
# The grammar of user agents

A user agent reads `/name:version/`, where neither part has a colon (`UserAgent.Names`).  A text of
that form, if it is not too long, can still fail for an empty part, the name before the version; a
text of any other form has an invalid format.  Since a text is taken apart in one way only, a user
agent has one name and one version.

Slashes and colons take one byte each.  So the places right behind the first slash and right before
the last one are boundaries of characters, whatever characters stand between them.
-/

namespace PeerNet

namespace UserAgent

/-! ## Two slashes -/

section Slashes

variable {text : String}

lemma toList_enclosed (inner : String) :
    ("/" ++ inner ++ "/").toList = '/' :: (inner.toList ++ ['/']) := by
  rw [String.toList_append, String.toList_append]
  rfl

/-- A text that begins with a slash and ends with another one. -/
lemma exists_inner_iff : (∃ inner : String, text = "/" ++ inner ++ "/") ↔
    2 ≤ text.utf8ByteSize ∧ text.toList.head? = some '/' ∧ text.toList.getLast? = some '/' := by
  constructor
  · rintro ⟨inner, rfl⟩
    refine ⟨?_, ?_, ?_⟩
    · rw [String.utf8ByteSize_append, String.utf8ByteSize_append]
      have hslash : "/".utf8ByteSize = 1 := by decide
      omega
    · rw [String.toList_append, String.toList_append]
      rfl
    · rw [String.toList_append]
      exact List.getLast?_concat
  · rintro ⟨hsize, hhead, hlast⟩
    obtain ⟨rest, hrest⟩ := List.head?_eq_some_iff.mp hhead
    rcases List.eq_nil_or_concat rest with rfl | ⟨inner, c, rfl⟩
    · -- A single slash does not count twice.
      obtain rfl : text = "/" := String.toList_inj.mp hrest
      exact absurd hsize (by decide)
    · rw [hrest, List.concat_eq_append, ← List.cons_append, List.getLast?_concat] at hlast
      obtain rfl := Option.some.inj hlast
      refine ⟨String.ofList inner, String.toList_inj.mp ?_⟩
      rw [hrest, toList_enclosed, String.toList_ofList, List.concat_eq_append]

/-- What stands inside is what is left without a slash at both ends. -/
lemma inner?_eq_some_iff {cs inner : List Char} :
    inner? cs = some inner ↔ cs = '/' :: (inner ++ ['/']) := by
  constructor
  · intro h
    unfold inner? at h
    split at h
    · next rest =>
      obtain ⟨hlast, hinner⟩ := Option.ite_none_right_eq_some.mp h
      obtain ⟨front, rfl⟩ := List.getLast?_eq_some_iff.mp hlast
      rw [List.dropLast_concat] at hinner
      rw [Option.some.inj hinner]
    · exact absurd h nofun
  · rintro rfl
    rw [inner?, if_pos List.getLast?_concat, List.dropLast_concat]

lemma utf8Bytes_append (s t : String) : utf8Bytes (s ++ t) = utf8Bytes s ++ utf8Bytes t := by
  change (s ++ t).toByteArray.data.toList = _
  rw [String.toByteArray_append, ByteArray.data_append, Array.toList_append]
  rfl

lemma length_utf8Bytes (s : String) : (utf8Bytes s).length = s.utf8ByteSize := rfl

/-- The two slashes can be cut off without cutting through a character. -/
lemma cut_enclosed (inner : String) :
    let text := "/" ++ inner ++ "/"
    (⟨1⟩ : String.Pos.Raw).IsValid text ∧
      (⟨text.utf8ByteSize - 1⟩ : String.Pos.Raw).IsValid text ∧
      ((utf8Bytes text).take (text.utf8ByteSize - 1)).drop 1 = utf8Bytes inner := by
  intro text
  have hslash : "/".utf8ByteSize = 1 := by decide
  have hsize : text.utf8ByteSize = ("/" ++ inner).utf8ByteSize + 1 := by
    rw [String.utf8ByteSize_append, hslash]
  have hbytes : utf8Bytes text = [0x2f] ++ utf8Bytes inner ++ [0x2f] := by
    rw [utf8Bytes_append, utf8Bytes_append]
    rfl
  refine ⟨?_, ?_, ?_⟩
  · exact String.Pos.Raw.isValid_iff_exists_append.mpr ⟨"/", inner ++ "/", String.append_assoc, rfl⟩
  · exact String.Pos.Raw.isValid_iff_exists_append.mpr ⟨"/" ++ inner, "/", rfl, by rw [hsize]; rfl⟩
  · have hfront : ([0x2f] ++ utf8Bytes inner).length = text.utf8ByteSize - 1 := by
      rw [hsize, String.utf8ByteSize_append, hslash, List.length_append, length_utf8Bytes]
      rfl
    rw [hbytes, List.take_left' hfront]
    rfl

end Slashes

/-! ## One colon -/

/-- A text in the form of a user agent, whose parts may be empty. -/
structure Names (text name version : String) : Prop where
  text_eq : text = "/" ++ name ++ ":" ++ version ++ "/"
  name_free : ':' ∉ name.toList
  version_free : ':' ∉ version.toList

/-- Where a list is cut at a colon, no part of the other cut can have one. -/
lemma append_cons_inj {name version name' version' : List Char}
    (h : name ++ ':' :: version = name' ++ ':' :: version') (hname : ':' ∉ name')
    (hversion : ':' ∉ version') : name = name' ∧ version = version' := by
  rcases List.append_eq_append_iff.mp h with ⟨between, rfl, hrest⟩ | ⟨between, rfl, hrest⟩
  · cases between with
    | nil => exact ⟨(List.append_nil name).symm, (List.cons_eq_cons.mp hrest).2⟩
    | cons c between =>
      obtain ⟨rfl, -⟩ := List.cons_eq_cons.mp hrest
      exact absurd (by simp) hname
  · cases between with
    | nil => exact ⟨List.append_nil name', (List.cons_eq_cons.mp hrest).2.symm⟩
    | cons c between =>
      obtain ⟨rfl, rfl⟩ := List.cons_eq_cons.mp hrest
      exact absurd (by simp) hversion

/-- A text has one part just if there is no colon in it. -/
lemma splitOn_eq_singleton_iff {cs part : List Char} :
    cs.splitOn ':' = [part] ↔ cs = part ∧ ':' ∉ part := by
  constructor
  · intro h
    have hjoin : [':'].intercalate (cs.splitOn ':') = cs := List.intercalate_splitOn ':'
    obtain rfl : cs = part := by
      rw [← hjoin, h]
      exact List.append_nil part
    refine ⟨rfl, fun hcolon => ?_⟩
    obtain ⟨front, back, rfl, hfront⟩ := List.eq_append_cons_of_mem hcolon
    rw [List.splitOn_append_cons_self_of_not_mem hfront] at h
    exact List.splitOn_ne_nil ':' back (List.cons_eq_cons.mp h).2
  · rintro ⟨rfl, hfree⟩
    exact List.splitOn_eq_singleton hfree

/-- A list falls into two parts exactly if one colon stands between them. -/
lemma splitOn_eq_pair_iff {cs name version : List Char} :
    cs.splitOn ':' = [name, version] ↔
      cs = name ++ ':' :: version ∧ ':' ∉ name ∧ ':' ∉ version := by
  constructor
  · intro h
    have hjoin : [':'].intercalate (cs.splitOn ':') = cs := List.intercalate_splitOn ':'
    have hcs : cs = name ++ ':' :: version := by
      rw [← hjoin, h]
      simp [List.intercalate]
    rw [hcs, List.splitOn_append_cons_self] at h
    -- Neither half is empty, so each of them is one of the two parts.
    rcases List.append_eq_cons_iff.mp h with ⟨hnone, -⟩ | ⟨more, hname, hrest⟩
    · exact absurd hnone (List.splitOn_ne_nil _ _)
    rcases List.append_eq_singleton_iff.mp hrest.symm with ⟨rfl, hversion⟩ | ⟨-, hnone⟩
    · exact ⟨hcs, (splitOn_eq_singleton_iff.mp hname).2, (splitOn_eq_singleton_iff.mp hversion).2⟩
    · exact absurd hnone (List.splitOn_ne_nil _ _)
  · rintro ⟨rfl, hname, hversion⟩
    rw [List.splitOn_append_cons_self_of_not_mem hname, List.splitOn_eq_singleton hversion]

variable {text name version : String}

lemma toList_form (name version : String) : ("/" ++ name ++ ":" ++ version ++ "/").toList =
    '/' :: ((name.toList ++ ':' :: version.toList) ++ ['/']) := by
  have hform : "/" ++ name ++ ":" ++ version ++ "/" = "/" ++ (name ++ ":" ++ version) ++ "/" := by
    simp only [String.append_assoc]
  rw [hform, toList_enclosed, String.toList_append, String.toList_append,
    List.append_assoc name.toList]
  rfl

/-- What is between the slashes falls into the name and the version. -/
lemma names_iff : Names text name version ↔
    (inner? text.toList).map (List.splitOn ':') = some [name.toList, version.toList] := by
  simp only [Option.map_eq_some_iff, inner?_eq_some_iff, splitOn_eq_pair_iff]
  constructor
  · rintro ⟨rfl, hname, hversion⟩
    exact ⟨_, toList_form name version, rfl, hname, hversion⟩
  · rintro ⟨inner, htext, rfl, hname, hversion⟩
    refine ⟨String.toList_inj.mp ?_, hname, hversion⟩
    rw [htext, toList_form]

/-- A text is of the form exactly if it has one colon between two slashes. -/
lemma exists_names_iff : (∃ name version, Names text name version) ↔
    (2 ≤ text.utf8ByteSize ∧ text.toList.head? = some '/' ∧ text.toList.getLast? = some '/') ∧
      text.toList.tail.dropLast.count ':' = 1 := by
  rw [← exists_inner_iff]
  constructor
  · rintro ⟨name, version, rfl, hname, hversion⟩
    refine ⟨⟨name ++ ":" ++ version, by simp only [String.append_assoc]⟩, ?_⟩
    rw [toList_form, List.tail_cons, List.dropLast_concat, List.count_append, List.count_cons_self,
      List.count_eq_zero.mpr hname, List.count_eq_zero.mpr hversion]
  · rintro ⟨⟨inner, rfl⟩, hcount⟩
    rw [toList_enclosed, List.tail_cons, List.dropLast_concat] at hcount
    have hcolon : ':' ∈ inner.toList := List.count_pos_iff.mp (by omega)
    obtain ⟨name, version, hinner, hname⟩ := List.eq_append_cons_of_mem hcolon
    rw [hinner, List.count_append, List.count_cons_self, List.count_eq_zero.mpr hname] at hcount
    have hversion : ':' ∉ version := List.count_eq_zero.mp (by omega)
    refine ⟨String.ofList name, String.ofList version, names_iff.mpr ?_⟩
    rw [toList_enclosed, inner?_eq_some_iff.mpr rfl, Option.map_some, String.toList_ofList,
      String.toList_ofList, splitOn_eq_pair_iff.mpr ⟨hinner, hname, hversion⟩]

/-- A text of the form that is made of two parts has these two parts and no others. -/
lemma Names.parts_eq {name' version' : String}
    (h : Names ("/" ++ name' ++ ":" ++ version' ++ "/") name version) :
    name' = name ∧ version' = version := by
  have hlists := congrArg String.toList h.text_eq
  rw [toList_form, toList_form] at hlists
  have hinner := List.append_cancel_right (List.cons_eq_cons.mp hlists).2
  obtain ⟨hname, hversion⟩ := append_cons_inj hinner h.name_free h.version_free
  exact ⟨String.toList_inj.mp hname, String.toList_inj.mp hversion⟩

/-! ## The verdict on a text -/

/-- What the check of a text comes to. -/
inductive Judged (text : String) : Except UserAgentError Unit → Prop
  | tooLong (hlong : Version.maxUserAgentSize < text.utf8ByteSize) :
    Judged text (.error (.tooLong text.utf8ByteSize))
  | formless (hshort : text.utf8ByteSize ≤ Version.maxUserAgentSize)
    (hform : ¬ ∃ name version, Names text name version) : Judged text (.error .invalidFormat)
  | nameless {version : String} (hshort : text.utf8ByteSize ≤ Version.maxUserAgentSize)
    (hform : Names text "" version) : Judged text (.error .missingName)
  | versionless {name : String} (hshort : text.utf8ByteSize ≤ Version.maxUserAgentSize)
    (hform : Names text name "") (hname : name ≠ "") : Judged text (.error .missingVersion)
  | accepted {name version : String} (hshort : text.utf8ByteSize ≤ Version.maxUserAgentSize)
    (hform : Names text name version) (hname : name ≠ "") (hversion : version ≠ "") :
    Judged text (.ok ())

/-- A text in the form of a user agent fails only for a part that is empty, and the name comes
first. -/
lemma checkForm_of_names (h : Names text name version) : checkForm text.toList =
    if name = "" then .error .missingName else if version = "" then .error .missingVersion
    else .ok () := by
  rw [checkForm, names_iff.mp h]
  simp only [List.isEmpty_iff, String.toList_eq_nil_iff]

/-- A text that is in no such form is refused for its form. -/
lemma checkForm_of_formless (h : ¬ ∃ name version, Names text name version) :
    checkForm text.toList = .error .invalidFormat := by
  rw [checkForm]
  split
  · next name version hparts =>
    refine absurd ⟨String.ofList name, String.ofList version, names_iff.mpr ?_⟩ h
    rw [hparts, String.toList_ofList, String.toList_ofList]
  · rfl

/-- The check judges every text, by its length first, then by its form, and by its parts last. -/
lemma check_judged (text : String) : Judged text (check text) := by
  rw [check]
  split
  · next hlong => exact .tooLong hlong
  · next hlong =>
    have hshort : text.utf8ByteSize ≤ Version.maxUserAgentSize := Nat.not_lt.mp hlong
    by_cases hform : ∃ name version, Names text name version
    · obtain ⟨name, version, hform⟩ := hform
      rw [checkForm_of_names hform]
      split_ifs with hname hversion
      · exact .nameless hshort (hname ▸ hform)
      · exact .versionless hshort (hversion ▸ hform) hname
      · exact .accepted hshort hform hname hversion
    · rw [checkForm_of_formless hform]
      exact .formless hshort hform

/-- The check of a text comes to one thing only. -/
lemma Judged.check_eq {result : Except UserAgentError Unit} (h : Judged text result) :
    check text = result := by
  rw [check]
  cases h with
  | tooLong hlong => rw [if_pos hlong]
  | formless hshort hform => rw [if_neg (Nat.not_lt.mpr hshort), checkForm_of_formless hform]
  | nameless hshort hform =>
    rw [if_neg (Nat.not_lt.mpr hshort), checkForm_of_names hform, if_pos rfl]
  | versionless hshort hform hname =>
    rw [if_neg (Nat.not_lt.mpr hshort), checkForm_of_names hform, if_neg hname, if_pos rfl]
  | accepted hshort hform hname hversion =>
    rw [if_neg (Nat.not_lt.mpr hshort), checkForm_of_names hform, if_neg hname, if_neg hversion]

/-- What the check of a text comes to is just what this judgement says. -/
lemma check_eq_iff {result : Except UserAgentError Unit} :
    check text = result ↔ Judged text result :=
  ⟨fun h => h ▸ check_judged text, Judged.check_eq⟩

/-- A text passes if it is short enough and in form, with two parts that are not empty. -/
lemma check_eq_ok_iff : check text = .ok () ↔
    text.utf8ByteSize ≤ Version.maxUserAgentSize ∧
      ∃ name version, Names text name version ∧ name ≠ "" ∧ version ≠ "" := by
  rw [check_eq_iff]
  constructor
  · rintro ⟨⟩
    exact ⟨‹_›, _, _, ‹_›, ‹_›, ‹_›⟩
  · rintro ⟨hshort, name, version, hform, hname, hversion⟩
    exact .accepted hshort hform hname hversion

/-- A text is refused for its length just if it has too many bytes, and is told how many. -/
lemma check_eq_tooLong_iff {size : Nat} : check text = .error (.tooLong size) ↔
    size = text.utf8ByteSize ∧ Version.maxUserAgentSize < text.utf8ByteSize := by
  rw [check_eq_iff]
  constructor
  · rintro ⟨⟩
    exact ⟨rfl, ‹_›⟩
  · rintro ⟨rfl, hlong⟩
    exact .tooLong hlong

/-- A text is refused for its form if it is short enough and lacks the slashes or has not exactly
one colon. -/
lemma check_eq_invalidFormat_iff : check text = .error .invalidFormat ↔
    text.utf8ByteSize ≤ Version.maxUserAgentSize ∧
      (text.utf8ByteSize < 2 ∨ text.toList.head? ≠ some '/' ∨ text.toList.getLast? ≠ some '/' ∨
        text.toList.tail.dropLast.count ':' ≠ 1) := by
  have hform : (¬ ∃ name version, Names text name version) ↔
      text.utf8ByteSize < 2 ∨ text.toList.head? ≠ some '/' ∨ text.toList.getLast? ≠ some '/' ∨
        text.toList.tail.dropLast.count ':' ≠ 1 := by
    rw [exists_names_iff, not_and_or, not_and_or, not_and_or, not_le, or_assoc, or_assoc]
  rw [check_eq_iff, ← hform]
  constructor
  · rintro ⟨⟩
    exact ⟨‹_›, ‹_›⟩
  · rintro ⟨hshort, hformless⟩
    exact .formless hshort hformless

/-- A text is refused for its name just if it is short enough, in form, and has none. -/
lemma check_eq_missingName_iff : check text = .error .missingName ↔
    text.utf8ByteSize ≤ Version.maxUserAgentSize ∧ ∃ version, Names text "" version := by
  rw [check_eq_iff]
  constructor
  · rintro ⟨⟩
    exact ⟨‹_›, _, ‹_›⟩
  · rintro ⟨hshort, version, hform⟩
    exact .nameless hshort hform

/-- A text is refused for its version just if it is short enough, in form, and has a name but no
version. -/
lemma check_eq_missingVersion_iff : check text = .error .missingVersion ↔
    text.utf8ByteSize ≤ Version.maxUserAgentSize ∧ ∃ name, Names text name "" ∧ name ≠ "" := by
  rw [check_eq_iff]
  constructor
  · rintro ⟨⟩
    exact ⟨‹_›, _, ‹_›, ‹_›⟩
  · rintro ⟨hshort, name, hform, hname⟩
    exact .versionless hshort hform hname

/-! ## Made of a name and a version -/

/-- A text is a user agent exactly if it passes the check. -/
lemma ofText_eq_ok_iff {agent : UserAgent} : ofText text = .ok agent ↔ agent.text = text := by
  unfold ofText
  constructor
  · intro h
    split at h
    · obtain rfl := Except.ok.inj h
      rfl
    · exact absurd h nofun
  · rintro rfl
    split
    · rfl
    · next e herror => exact absurd (herror.symm.trans agent.valid) nofun

lemma utf8ByteSize_form (name version : String) :
    ("/" ++ name ++ ":" ++ version ++ "/").utf8ByteSize =
      name.utf8ByteSize + version.utf8ByteSize + 3 := by
  have hslash : "/".utf8ByteSize = 1 := by decide
  have hcolon : ":".utf8ByteSize = 1 := by decide
  simp only [String.utf8ByteSize_append, hslash, hcolon]
  omega

/-- A text made of a name and a version passes just if these are not empty, have no colon, and are
short enough. -/
lemma check_form_eq_ok_iff : check ("/" ++ name ++ ":" ++ version ++ "/") = .ok () ↔
    name ≠ "" ∧ version ≠ "" ∧ ':' ∉ name.toList ∧ ':' ∉ version.toList ∧
      name.utf8ByteSize + version.utf8ByteSize + 3 ≤ Version.maxUserAgentSize := by
  rw [check_eq_ok_iff, utf8ByteSize_form]
  constructor
  · rintro ⟨hshort, name', version', hform, hname, hversion⟩
    obtain ⟨rfl, rfl⟩ := hform.parts_eq
    exact ⟨hname, hversion, hform.name_free, hform.version_free, hshort⟩
  · rintro ⟨hname, hversion, hnameFree, hversionFree, hshort⟩
    exact ⟨hshort, name, version, ⟨rfl, hnameFree, hversionFree⟩, hname, hversion⟩

/-- A name and a version make a user agent exactly if they are not empty, have no colon, and leave
room for the slashes and the colon. -/
lemma exists_ofParts_iff : (∃ agent, ofParts name version = .ok agent) ↔
    name ≠ "" ∧ version ≠ "" ∧ ':' ∉ name.toList ∧ ':' ∉ version.toList ∧
      name.utf8ByteSize + version.utf8ByteSize + 3 ≤ Version.maxUserAgentSize := by
  rw [← check_form_eq_ok_iff]
  constructor
  · rintro ⟨agent, hmade⟩
    rw [← ofText_eq_ok_iff.mp hmade]
    exact agent.valid
  · intro hvalid
    exact ⟨⟨_, hvalid⟩, ofText_eq_ok_iff.mpr rfl⟩

/-- No two pairs of parts make the same user agent. -/
lemma ofParts_inj {name' version' : String} {agent : UserAgent}
    (h : ofParts name version = .ok agent) (h' : ofParts name' version' = .ok agent) :
    name = name' ∧ version = version' := by
  obtain ⟨-, -, hname, hversion, -⟩ := exists_ofParts_iff.mp ⟨agent, h'⟩
  have htexts := (ofText_eq_ok_iff.mp h).symm.trans (ofText_eq_ok_iff.mp h')
  exact Names.parts_eq ⟨htexts, hname, hversion⟩

/-- A version with a user agent that passed the check is read back, unless it has too many
capabilities. -/
lemma decodeAll_version_eq_ok_iff {agent : UserAgent} {v : Version} (h : v.userAgent = agent.text) :
    Version.decoder.decodeAll v.encode = .ok v ↔ v.capabilities.length ≤ Capability.maxCount := by
  obtain ⟨hshort, -⟩ := check_eq_ok_iff.mp agent.valid
  have hfits : v.Fits ↔ v.capabilities.length ≤ Capability.maxCount := by
    rw [Version.Fits, h]
    exact and_iff_right hshort
  rw [Version.decoder_inverts.decodeAll_eq_ok_iff, hfits]
  simp

/-- A text is a user agent exactly if it takes no more bytes than a version allows and reads
`/name:version/`, with two parts that are not empty and have no colon.  Of what else is wrong with a
text, its length comes first, then its form, then an empty name, then an empty version.  The form is
that of a text of two bytes or more with a slash at each end and one colon between them; the slashes
are at boundaries of characters, so that they can be cut off.

So a name and a version make a user agent exactly if they are not empty, have no colon and are short
enough together, no two pairs make the same, and it is never for the sake of its user agent that a
version is not read back. -/
theorem grammar :
    (∀ text,
      (check text = .ok () ↔ text.utf8ByteSize ≤ Version.maxUserAgentSize ∧
        ∃ name version, Names text name version ∧ name ≠ "" ∧ version ≠ "") ∧
      (∀ size, check text = .error (.tooLong size) ↔
        size = text.utf8ByteSize ∧ Version.maxUserAgentSize < text.utf8ByteSize) ∧
      (check text = .error .invalidFormat ↔ text.utf8ByteSize ≤ Version.maxUserAgentSize ∧
        (text.utf8ByteSize < 2 ∨ text.toList.head? ≠ some '/' ∨ text.toList.getLast? ≠ some '/' ∨
          text.toList.tail.dropLast.count ':' ≠ 1)) ∧
      (check text = .error .missingName ↔ text.utf8ByteSize ≤ Version.maxUserAgentSize ∧
        ∃ version, Names text "" version) ∧
      (check text = .error .missingVersion ↔ text.utf8ByteSize ≤ Version.maxUserAgentSize ∧
        ∃ name, Names text name "" ∧ name ≠ "") ∧
      (2 ≤ text.utf8ByteSize → text.toList.head? = some '/' → text.toList.getLast? = some '/' →
        (⟨1⟩ : String.Pos.Raw).IsValid text ∧
        (⟨text.utf8ByteSize - 1⟩ : String.Pos.Raw).IsValid text ∧
        ((utf8Bytes text).take (text.utf8ByteSize - 1)).drop 1 =
          utf8Bytes (String.ofList text.toList.tail.dropLast))) ∧
    (∀ name version, (∃ agent, ofParts name version = .ok agent) ↔
      name ≠ "" ∧ version ≠ "" ∧ ':' ∉ name.toList ∧ ':' ∉ version.toList ∧
        name.utf8ByteSize + version.utf8ByteSize + 3 ≤ Version.maxUserAgentSize) ∧
    (∀ name version name' version' agent, ofParts name version = .ok agent →
      ofParts name' version' = .ok agent → name = name' ∧ version = version') ∧
    ∀ (agent : UserAgent) (v : Version), v.userAgent = agent.text →
      (Version.decoder.decodeAll v.encode = .ok v ↔
        v.capabilities.length ≤ Capability.maxCount) := by
  refine ⟨fun text => ⟨check_eq_ok_iff, fun size => check_eq_tooLong_iff,
    check_eq_invalidFormat_iff, check_eq_missingName_iff, check_eq_missingVersion_iff, ?_⟩,
    fun name version => exists_ofParts_iff, fun _ _ _ _ agent => ofParts_inj,
    fun agent v => decodeAll_version_eq_ok_iff⟩
  intro hsize hhead hlast
  obtain ⟨inner, rfl⟩ := exists_inner_iff.mpr ⟨hsize, hhead, hlast⟩
  have hinner : String.ofList ("/" ++ inner ++ "/").toList.tail.dropLast = inner := by
    rw [toList_enclosed, List.tail_cons, List.dropLast_concat, String.ofList_toList]
  rw [hinner]
  exact cut_enclosed inner

/-- Parts of wide characters.  The slashes are cut off behind the first and the eighth of nine
bytes, no other parts make the same user agent, and a version is read back with it; a slash alone is
no text between two slashes. -/
theorem grammar_of_wide_characters :
    let text := "/é:😀/"
    check text = .ok () ∧ (⟨1⟩ : String.Pos.Raw).IsValid text ∧
    (⟨8⟩ : String.Pos.Raw).IsValid text ∧ check "/" = .error .invalidFormat ∧
    ∃ agent, ofParts "é" "😀" = .ok agent ∧
      (∀ name version, ofParts name version = .ok agent → name = "é" ∧ version = "😀") ∧
      let v : Version := ⟨1, 0, 0, 7, agent.text, [.fullNode 3]⟩
      Version.decoder.decodeAll v.encode = .ok v := by
  intro text
  obtain ⟨hcheck, hparts, hunique, hversion⟩ := grammar
  obtain ⟨haccepted, -, -, -, -, hcut⟩ := hcheck text
  obtain ⟨hfirst, hlast, -⟩ := hcut (by decide) (by decide) (by decide)
  obtain ⟨agent, hagent⟩ := (hparts "é" "😀").mpr (by decide)
  have hform : Names text "é" "😀" := ⟨by decide, by decide, by decide⟩
  have hcapabilities : [Capability.fullNode 3].length ≤ Capability.maxCount := by decide
  refine ⟨haccepted.mpr ⟨by decide, "é", "😀", hform, by decide, by decide⟩, hfirst, hlast,
    (hcheck "/").2.2.1.mpr (by decide), agent, hagent, ?_, (hversion agent _ rfl).mpr hcapabilities⟩
  intro name version hmade
  exact hunique name version "é" "😀" agent hmade hagent

end UserAgent

end PeerNet
