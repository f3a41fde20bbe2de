import WolfsslRs.Delimited
import WolfsslRs.SshLineTrip
/-!
# SshKeyFile — what files of keys have in common (`authorized_keys.rs`, `known_hosts.rs`)

A file is read line by line: what follows a `#` is a comment, and so is a line with nothing else on it (`items_eq`).  Keys
are written on a line with `to_string`, which panics on any error; what it writes of a key that was read from a line is
read back (`toString_lined`).
-/
namespace Wolf
namespace Ssh

open Reader Program Delimited

/-! ## Lines of a file -/

/-- `str::lines`: a line ends in a line feed, with or without a carriage return before it. -/
def lines (input : Text) : List Text :=
  (splitInclusive '\n' input).map fun line =>
    match stripSuffix ['\n'] line with
    | none => line
    | some line => (stripSuffix ['\r'] line).getD line

def commentDelimiter : Char := '#'

/-- `next_line_trimmed`, on the lines that are left: the next line that is more than a comment, and the lines after it. -/
def nextLineTrimmed : List Text → Option (Text × List Text)
  | [] => none
  | line :: rest =>
    let line := match splitOnce commentDelimiter line with
      | some (l, _) => l
      | none => line
    let line := trimEnd line
    if line.isEmpty then nextLineTrimmed rest else some (line, rest)

def lineTrimmed (line : Text) : Text := trimEnd (line.takeWhile (· != commentDelimiter))

theorem splitOnce_getD (c : Char) (t : Text) :
    (match splitOnce c t with | some (l, _) => l | none => t) = t.takeWhile (· != c) := by
  unfold splitOnce
  cases hd : t.dropWhile (· != c) with
  | nil =>
    have hback := List.takeWhile_append_dropWhile (p := (· != c)) (l := t)
    rw [hd, List.append_nil] at hback
    exact hback.symm
  | cons x after => rfl

theorem nextLineTrimmed_cons (line : Text) (rest : List Text) :
    nextLineTrimmed (line :: rest) =
      if lineTrimmed line = [] then nextLineTrimmed rest else some (lineTrimmed line, rest) := by
  rw [nextLineTrimmed]
  simp only [splitOnce_getD, List.isEmpty_iff]
  rfl

section
variable {α : Type} (parse : Text → Except Exit α)

/-- `next`, called `n` times at most. -/
def nextItems : Nat → List Text → List (Except Exit α)
  | 0, _ => []
  | n + 1, ls =>
    match nextLineTrimmed ls with
    | none => []
    | some (line, rest) => parse line :: nextItems n rest

/-- All that the iterator yields: no call of `next` is without a line. -/
def items (input : Text) : List (Except Exit α) := nextItems parse (lines input).length (lines input)

theorem nextItems_eq : ∀ (n : Nat) (ls : List Text), ls.length ≤ n →
    nextItems parse n ls = ((ls.map lineTrimmed).filter (· ≠ [])).map parse
  | 0, [], _ => rfl
  | n + 1, [], _ => rfl
  | n + 1, l :: ls, h => by
    have hlen : ls.length ≤ n := Nat.le_of_succ_le_succ h
    rw [nextItems, nextLineTrimmed_cons, List.map_cons]
    by_cases hl : lineTrimmed l = []
    · -- a line with nothing on it takes no call
      rw [if_pos hl, List.filter_cons_of_neg (by simpa using hl), ← nextItems_eq (n + 1) ls (by omega)]
      rfl
    · rw [if_neg hl, List.filter_cons_of_pos (by simpa using hl), List.map_cons, ← nextItems_eq n ls hlen]

/-- **The iterator parses every line that is more than a comment.** -/
theorem items_eq (input : Text) : items parse input = (((lines input).map lineTrimmed).filter (· ≠ [])).map parse :=
  nextItems_eq parse _ _ (Nat.le_refl _)

end

theorem stripSuffix_append (x y : Text) : stripSuffix y (x ++ y) = some x := by
  unfold stripSuffix
  rw [if_pos (List.suffix_append x y), List.length_append, Nat.add_sub_cancel, List.take_left]

theorem stripSuffix_eq_some {x y z : Text} (h : stripSuffix y x = some z) : z ⊆ x := by
  unfold stripSuffix at h
  split at h
  · cases h
    exact List.take_subset _ _
  · cases h

theorem split_space {x u y v : Text} (hx : ' ' ∉ x) (hy : ' ' ∉ y) (h : x ++ ' ' :: u = y ++ ' ' :: v) :
    x = y ∧ u = v := by
  have hsplit : splitOnce ' ' (x ++ ' ' :: u) = some (x, u) := splitOnce_eq_some.2 ⟨rfl, hx⟩
  rw [splitOnce_eq_some.2 ⟨h, hy⟩, Option.some.injEq, Prod.mk.injEq] at hsplit
  exact ⟨hsplit.1.symm, hsplit.2.symm⟩

theorem lines_append {x : Text} (hfeed : '\n' ∉ x) (htrim : trimEnd x = x) (rest : Text) :
    lines (x ++ '\n' :: rest) = x :: lines rest := by
  have hreturn : stripSuffix ['\r'] x = none := by
    unfold stripSuffix
    rw [if_neg]
    rintro ⟨y, rfl⟩
    have hlast := trimEnd_eq_self.1 htrim (by simp)
    rw [List.getLast_append_singleton] at hlast
    exact absurd hlast (by decide)
  unfold lines
  rw [splitInclusive_append_cons rest hfeed, List.map_cons, stripSuffix_append]
  dsimp only
  rw [hreturn]
  rfl

theorem not_mem_of_mem_lines {input line : Text} (h : line ∈ lines input) : '\n' ∉ line := by
  obtain ⟨p, hp, rfl⟩ := List.mem_map.1 h
  obtain ⟨q, hq, rfl | rfl⟩ := of_mem_splitInclusive hp
  · rw [stripSuffix_append]
    dsimp only
    cases hreturn : stripSuffix ['\r'] q with
    | none => exact hq
    | some z => exact fun hz => hq (stripSuffix_eq_some hreturn hz)
  · have hfeed : stripSuffix ['\n'] p = none := by
      unfold stripSuffix
      rw [if_neg]
      rintro ⟨y, rfl⟩
      exact hq (by simp)
    rw [hfeed]
    exact hq

theorem lineTrimmed_eq_self {x : Text} (hhash : '#' ∉ x) (htrim : trimEnd x = x) : lineTrimmed x = x := by
  have hall : x.takeWhile (· != commentDelimiter) = x := by
    rw [List.takeWhile_eq_self_iff]
    intro c hc
    rw [bne_iff_ne]
    rintro rfl
    exact hhash hc
  rw [lineTrimmed, hall, htrim]

theorem mem_of_lineTrimmed {line : Text} {c : Char} (h : c ∈ lineTrimmed line) : c ∈ line ∧ c ≠ '#' := by
  have hc := trimEnd_subset _ h
  refine ⟨(List.takeWhile_subset _) hc, ?_⟩
  simpa [commentDelimiter] using List.mem_takeWhile_imp hc

/-- A line with more on it than a comment is parsed, and then the lines after it. -/
theorem items_append {α : Type} (parse : Text → Except Exit α) {x : Text} (hfeed : '\n' ∉ x) (hhash : '#' ∉ x)
    (htrim : trimEnd x = x) (hne : x ≠ []) (rest : Text) :
    items parse (x ++ '\n' :: rest) = parse x :: items parse rest := by
  rw [items_eq, lines_append hfeed htrim, List.map_cons, lineTrimmed_eq_self hhash htrim,
    List.filter_cons_of_pos (by simpa using hne), List.map_cons, ← items_eq]

/-! ## Keys on a line -/

/-- `PublicKey`'s `ToString`: an error of `to_openssh` panics. -/
def PublicKey.toString (C : Crates) (T : TextCrates) (key : PublicKey) : Except Exit Text :=
  match key.toOpenssh C T with
  | .ok s => .ok s
  | .error (.panic message) => .error (.panic message)
  | .error .running => .error .running
  | .error _ => .error (.panic "SSH public key encoding error")

section
variable {C : Crates} {T : TextCrates}

theorem mem_of_decodeSegment : ∀ {t field rest : Text}, decodeSegment t = .ok (field, rest) →
    ∀ c ∈ field ++ rest, c ∈ t
  | [], _, _, h => by
    cases h
    simp
  | c :: t, field, rest, h => by
    unfold decodeSegment at h
    split at h
    · obtain ⟨⟨field', rest'⟩, ht, h⟩ := bind_ok.1 h
      cases h
      intro d hd
      rcases List.mem_cons.1 hd with rfl | hd
      · exact List.mem_cons_self ..
      · exact List.mem_cons_of_mem _ (mem_of_decodeSegment ht d hd)
    · split at h
      · cases h
        exact fun d hd => List.mem_cons_of_mem _ hd
      · cases h

theorem not_mem_space_of_segment {t : Text} (h : ∀ c ∈ t, segmentChar c = true) : ' ' ∉ t := by
  intro hmem
  have hno : segmentChar ' ' = false := by decide
  rw [h _ hmem] at hno
  cases hno

theorem mem_of_format {t : Text} {encapsulation : SshFormat} (h : SshFormat.decode t = .ok encapsulation) :
    ∀ c ∈ encapsulation.comment, c ∈ t := by
  obtain ⟨rest, rest', hid, hdata, hcomment, -⟩ := decode_segments h
  intro c hc
  rw [hcomment] at hc
  have hrest := mem_of_decodeSegment hdata c (List.mem_append_right _ (trimEnd_subset rest' hc))
  exact mem_of_decodeSegment hid c (List.mem_append_right _ hrest)

/-- What a key is that was read from a line, with its comment. -/
structure PublicKey.Lined (C : Crates) (key : PublicKey) (comment : Text) : Prop where
  written : key.comment = comment.utf8
  trimmed : trimEnd comment = comment
  name : ∀ c ∈ key.keyData.algorithm.asStr, segmentChar c = true
  decoded : ∃ bs : Bytes, bs.length ≤ C.sizeMax ∧ (KeyData.decode C).run bs = .ok key.keyData []

theorem lined_of_fromOpenssh (hT : T.Lawful) {line : Text} {key : PublicKey} (hlen : line.len ≤ C.sizeMax)
    (h : PublicKey.fromOpenssh C T line = .ok key) : ∃ comment, key.Lined C comment := by
  obtain ⟨encapsulation, reader, hformat, hdata, hrun, -, hname, hcomment⟩ := fromOpenssh_ok.1 h
  obtain ⟨hsegment, htrim⟩ := decode_format_ok hformat
  rw [hname] at hsegment
  refine ⟨encapsulation.comment, hcomment, htrim, hsegment, reader.readable, ?_, hrun⟩
  have h₁ := hT.readable_le _ _ hdata
  have h₂ := len_base64Data hformat
  have h₃ := len_trimEnd line
  omega

theorem mem_of_fromOpenssh (hT : T.RoundTrips) {line : Text} {key : PublicKey}
    (h : PublicKey.fromOpenssh C T line = .ok key) : ∀ c ∈ asStrLossy T key.comment, c ∈ line := by
  obtain ⟨encapsulation, reader, hformat, -, -, -, -, hcomment⟩ := fromOpenssh_ok.1 h
  rw [hcomment, asStrLossy_utf8 hT]
  intro c hc
  exact trimEnd_subset line (mem_of_format hformat c hc)

/-- **Reading a key fails without a panic.** -/
theorem errs_fromOpenssh (hC : C.Lawful) (hT : T.Lawful) (line : Text) : Errs (PublicKey.fromOpenssh C T line) := by
  refine errs_bind (errs_decode _) fun encapsulation => errs_bind (hT.errs _) fun reader => ?_
  split
  · rename_i e rest hrun
    exact errs_error (reads_error (reads_keyData hC _) hrun)
  · exact errs_ite (errs_error trivial) (errs_ite errs_ok (errs_error trivial))

/-- A key can be written: it has bytes in which every certificate type has a name, and the length of its line can be
counted. -/
def PublicKey.Writable (C : Crates) (T : TextCrates) (key : PublicKey) : Prop :=
  (∃ sp b, b.length ≤ C.usizeMax ∧ Spells C sp key.keyData b ∧ sp.Named) ∧
    ∀ n, key.keyData.encodedLen C = .ok n → Room C n key.keyData.algorithm.asStr (asStrLossy T key.comment)

theorem toString_eq_ok {key : PublicKey} {t : Text} : key.toString C T = .ok t ↔ key.toOpenssh C T = .ok t := by
  unfold PublicKey.toString
  cases key.toOpenssh C T with
  | ok s => rfl
  | error e => cases e <;> exact ⟨nofun, nofun⟩

theorem toString_of_writable (hC : C.Lawful) (hT : T.RoundTrips) {key : PublicKey} {comment : Text}
    (hkey : key.Lined C comment) (h : key.Writable C T) : ∃ t, key.toString C T = .ok t := by
  obtain ⟨keyData, bytes⟩ := key
  obtain ⟨rfl, -⟩ := hkey
  obtain ⟨⟨sp, b, hb, hsp, hnamed⟩, hroom⟩ := h
  obtain ⟨w, hw, hlen, -⟩ := encode_of_named hC hsp hb hnamed
  dsimp only at hroom
  rw [asStrLossy_utf8 hT] at hroom
  exact ⟨_, toString_eq_ok.2 ((toOpenssh_ok hT hw hlen).2 ⟨hroom _ hlen, rfl⟩)⟩

/-- **What is written of a key that was read from a line** is a line, which is read back. -/
theorem toString_lined (hC : C.CertRoundTrips) (hT : T.RoundTrips) {key : PublicKey} {comment t : Text}
    (hkey : key.Lined C comment) (ht : key.toString C T = .ok t) : key.Writable C T ∧ ∃ w ≠ [],
      t = SshFormat.line key.keyData.algorithm.asStr (T.base64Encode w) comment ∧
      PublicKey.fromOpenssh C T t = .ok key := by
  obtain ⟨keyData, bytes⟩ := key
  obtain ⟨rfl, htrim, hname, bs, hbs, hrun⟩ := hkey
  dsimp only at hname hrun
  obtain ⟨sp, hsp⟩ := finish_ok (reads_keyData hC.toLawful bs.length) (finish_run.2 hrun)
  have hbs' := Nat.le_trans hbs hC.sizeMax_le
  rw [toString_eq_ok] at ht
  by_cases hnamed : sp.Named
  · obtain ⟨w, hw, hlen, hle⟩ := encode_of_named hC.toLawful hsp hbs' hnamed
    have hmax : w.length ≤ C.sizeMax := Nat.le_trans hle hbs
    have hback := (fromOpenssh_line_iff hC hT hrun hw hmax comment).2 ⟨hname, htrim⟩
    have hne : w ≠ [] := ne_nil_of_decode hC.toLawful (decode_encode hC hrun hw hmax)
    obtain ⟨hroom, rfl⟩ := (toOpenssh_ok hT hw hlen).1 ht
    refine ⟨⟨⟨sp, bs, hbs', hsp, hnamed⟩, fun n hn => ?_⟩, w, hne, rfl, hback⟩
    dsimp only at hn ⊢
    rw [hlen] at hn
    rw [asStrLossy_utf8 hT, ← Except.ok.inj hn]
    exact hroom
  · -- a name is missing: the length of the key is not known, and asking for it panics
    obtain ⟨hvalid, hvalue, hbytes⟩ := hsp
    have hpanic := encodedLen_of_unnamed hC.toLawful hvalid hnamed hbytes hbs'
    rw [hvalue] at hpanic
    obtain ⟨n, hn, -⟩ := bind_ok.1 ht
    rw [hpanic] at hn
    cases hn

end

theorem Sample.other_writable {T : TextCrates} (hT : T.RoundTrips) {comment : Text}
    (hroom : Room Rfc4251.wireCrates 27 Sample.name comment) :
    PublicKey.Writable Rfc4251.wireCrates T ⟨Sample.other Sample.name, comment.utf8⟩ := by
  have hspells : Spells Rfc4251.wireCrates (.plain Sample.name (Sample.other Sample.name)) (Sample.other Sample.name)
      (Sample.otherBytes Sample.name) :=
    ⟨⟨⟨.other ⟨Sample.name⟩, by decide +kernel, rfl⟩, rfl⟩, rfl, by decide +kernel⟩
  have hlen : (Sample.other Sample.name).encodedLen Rfc4251.wireCrates = .ok 27 := by decide +kernel
  refine ⟨⟨_, _, by decide +kernel, hspells, trivial⟩, fun n hn => ?_⟩
  dsimp only at hn ⊢
  rw [hlen] at hn
  rw [← Except.ok.inj hn, asStrLossy_utf8 hT]
  exact hroom

end Ssh
end Wolf
