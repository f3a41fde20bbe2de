import WolfsslRs.SshAuthorizedKeys
/-!
# SshAuthorizedTrip — entries of `authorized_keys` written and read back

An entry comes back from its own text unless it has options and no comment, which the reader does not tell from a key with
a comment; and from a file if nothing in it ends the line or begins a comment (`authorized_keys_round_trip_iff`).
-/
namespace Wolf
namespace Ssh

open Reader Program

section
variable (C : Crates) (T : TextCrates)

def Entry.toString (entry : Entry) : Except Exit Text := do
  let s := if entry.configOpts.isEmpty then [] else entry.configOpts ++ [' ']
  let key ← entry.publicKey.toString C T
  .ok (s ++ key)

/-- The entries of a file, one on a line. -/
def writeLines : List Entry → Except Exit Text
  | [] => .ok []
  | entry :: entries => do
    let line ← entry.toString C T
    let rest ← writeLines entries
    .ok (line ++ '\n' :: rest)

end

section
variable {C : Crates} {T : TextCrates}

/-! ## Entries come back -/

theorem toString_entry_ok {entry : Entry} {s : Text} : entry.toString C T = .ok s ↔ ∃ t,
    entry.publicKey.toString C T = .ok t ∧
      s = if entry.configOpts = [] then t else entry.configOpts ++ ' ' :: t := by
  unfold Entry.toString
  rw [bind_ok]
  refine exists_congr fun t => and_congr_right fun _ => ?_
  by_cases hnil : entry.configOpts = []
  · rw [if_pos (by simpa using hnil), if_pos hnil, List.nil_append, Except.ok.injEq, eq_comm]
  · rw [if_neg (by simpa using hnil), if_neg hnil, List.append_assoc, List.singleton_append, Except.ok.injEq, eq_comm]

theorem count_of_segment {t : Text} (h : ∀ c ∈ t, segmentChar c = true) : t.count ' ' = 0 :=
  List.count_eq_zero.2 (not_mem_space_of_segment h)

theorem count_line {id base64Data : Text} (hid : ∀ c ∈ id, segmentChar c = true)
    (hdata : ∀ c ∈ base64Data, segmentChar c = true) (comment : Text) :
    (SshFormat.line id base64Data comment).count ' ' = if comment = [] then 1 else 2 + comment.count ' ' := by
  unfold SshFormat.line
  rw [List.count_append, List.count_cons_self, List.count_append, count_of_segment hid, count_of_segment hdata]
  by_cases hnil : comment = []
  · rw [if_pos hnil, if_pos hnil, List.count_nil]
  · rw [if_neg hnil, if_neg hnil, List.count_cons_self]
    omega

/-- **The text of an entry is read as the entry** unless it has options and no comment. -/
theorem fromStr_toString_iff (hC : C.CertRoundTrips) (hT : T.Strict) {entry : Entry} {comment s : Text}
    (hkey : entry.publicKey.Lined C comment) (hopts : ∀ c ∈ entry.configOpts, optionChar c = true)
    (hs : entry.toString C T = .ok s) :
    Entry.fromStr C T s = .ok entry ↔ entry.configOpts = [] ∨ comment ≠ [] := by
  obtain ⟨t, ht, rfl⟩ := toString_entry_ok.1 hs
  obtain ⟨-, w, -, htext, hback⟩ := toString_lined hC hT.toRoundTrips hkey ht
  have hcount := count_line hkey.name (hT.segment w) comment
  rw [← htext] at hcount
  rw [fromStr_entry_ok hC.toLawful hT.toLawful]
  by_cases hnil : entry.configOpts = []
  · rw [if_pos hnil]
    refine ⟨fun _ => .inl hnil, fun _ => .inl ⟨?_, hnil, hback⟩⟩
    rw [hcount]
    split <;> omega
  · rw [if_neg hnil, List.count_append, List.count_cons_self, List.count_eq_zero.2 (not_mem_space hopts), hcount]
    constructor
    · rintro (⟨-, h, -⟩ | ⟨hthree, -⟩)
      · exact absurd h hnil
      · refine .inr fun hempty => ?_
        rw [if_pos hempty] at hthree
        omega
    · rintro (h | hne)
      · exact absurd h hnil
      · rw [if_neg hne]
        exact .inr ⟨by omega, fun _ => not_fromOpenssh_behind hT (not_mem_space hopts) hback, t, rfl, hopts, hback⟩

/-! ## Files -/

/-- Nothing in the entry ends its line or begins a comment. -/
def Entry.Clean (T : TextCrates) (entry : Entry) : Prop :=
  '#' ∉ entry.configOpts ∧ '#' ∉ asStrLossy T entry.publicKey.comment ∧ '\n' ∉ asStrLossy T entry.publicKey.comment

/-- **No other entry is read from a file.** -/
theorem clean_of_mem_items (hC : C.Lawful) (hT : T.Strict) {input : Text} {entry : Entry}
    (h : .ok entry ∈ items (Entry.fromStr C T) input) : entry.Clean T := by
  rw [items_eq] at h
  obtain ⟨trimmed, htrimmed, hentry⟩ := List.mem_map.1 h
  obtain ⟨line, hline, rfl⟩ := List.mem_map.1 (List.mem_filter.1 htrimmed).1
  have hmem := mem_of_fromStr hC hT hentry
  refine ⟨fun hc => ?_, fun hc => ?_, fun hc => ?_⟩
  · exact (mem_of_lineTrimmed (hmem _ (List.mem_append_left _ hc))).2 rfl
  · exact (mem_of_lineTrimmed (hmem _ (List.mem_append_right _ hc))).2 rfl
  · exact not_mem_of_mem_lines hline (mem_of_lineTrimmed (hmem _ (List.mem_append_right _ hc))).1

theorem toString_clean (hC : C.CertRoundTrips) (hT : T.Strict) {entry : Entry} {comment s : Text}
    (hkey : entry.publicKey.Lined C comment) (hopts : ∀ c ∈ entry.configOpts, optionChar c = true)
    (hclean : entry.Clean T) (hs : entry.toString C T = .ok s) :
    '\n' ∉ s ∧ '#' ∉ s ∧ trimEnd s = s ∧ s ≠ [] := by
  obtain ⟨t, ht, rfl⟩ := toString_entry_ok.1 hs
  obtain ⟨-, w, hw, rfl, -⟩ := toString_lined hC hT.toRoundTrips hkey ht
  obtain ⟨hhash, hhash', hfeed'⟩ := hclean
  rw [hkey.written, asStrLossy_utf8 hT.toRoundTrips] at hhash' hfeed'
  have htrim := trimEnd_line entry.publicKey.keyData.algorithm.asStr (hT.segment w) (base64Encode_ne_nil hT.toRoundTrips hw)
    hkey.trimmed
  have hline : ∀ c, segmentChar c = false → c ≠ ' ' → c ∉ comment →
      c ∉ SshFormat.line entry.publicKey.keyData.algorithm.asStr (T.base64Encode w) comment := by
    intro c hsegment hspace hcomment hc
    rcases of_mem_line hkey.name (hT.segment w) hc with hc | hc | hc
    · rw [hc] at hsegment
      cases hsegment
    · exact hspace hc
    · exact hcomment hc
  have hfeedLine := hline '\n' (by decide) (by decide) hfeed'
  have hhashLine := hline '#' (by decide) (by decide) hhash'
  have hne : SshFormat.line entry.publicKey.keyData.algorithm.asStr (T.base64Encode w) comment ≠ [] := by
    unfold SshFormat.line
    simp
  split
  · exact ⟨hfeedLine, hhashLine, htrim, hne⟩
  · have hfeed : '\n' ∉ entry.configOpts := by
      intro hmem
      have hno : optionChar '\n' = false := by decide
      rw [hopts _ hmem] at hno
      cases hno
    refine ⟨by simp [hfeed, hfeedLine], by simp [hhash, hhashLine], ?_, by simp⟩
    rw [← List.singleton_append, ← List.append_assoc]
    exact trimEnd_append hne htrim

theorem writeLines_total : ∀ {entries : List Entry}, (∀ entry ∈ entries, ∃ s, entry.toString C T = .ok s) →
    ∃ text, writeLines C T entries = .ok text
  | [], _ => ⟨[], rfl⟩
  | entry :: entries, h => by
    rw [List.forall_mem_cons] at h
    obtain ⟨⟨s, hs⟩, h⟩ := h
    obtain ⟨text, htext⟩ := writeLines_total h
    exact ⟨_, bind_ok.2 ⟨s, hs, bind_ok.2 ⟨text, htext, rfl⟩⟩⟩

theorem items_writeLines : ∀ {entries : List Entry} {text : Text}, writeLines C T entries = .ok text →
    (∀ entry ∈ entries, ∀ s, entry.toString C T = .ok s → '\n' ∉ s ∧ '#' ∉ s ∧ trimEnd s = s ∧ s ≠ []) →
    (items (Entry.fromStr C T) text = entries.map .ok ↔
      ∀ entry ∈ entries, ∃ s, entry.toString C T = .ok s ∧ Entry.fromStr C T s = .ok entry)
  | [], _, h, _ => by
    cases h
    exact ⟨fun _ => by simp, fun _ => rfl⟩
  | entry :: entries, _, h, hclean => by
    obtain ⟨s, hs, h⟩ := bind_ok.1 h
    obtain ⟨rest, hrest, h⟩ := bind_ok.1 h
    cases h
    rw [List.forall_mem_cons] at hclean
    obtain ⟨hfeed, hhash, htrim, hne⟩ := hclean.1 s hs
    rw [items_append _ hfeed hhash htrim hne, List.map_cons, List.cons.injEq, items_writeLines hrest hclean.2,
      List.forall_mem_cons]
    refine and_congr_left fun _ => ⟨fun hback => ⟨s, hs, hback⟩, ?_⟩
    rintro ⟨s', hs', hback⟩
    rw [hs] at hs'
    rw [Except.ok.inj hs']
    exact hback

/-- The key can be written, and options have a comment behind it. -/
def Entry.Printable (C : Crates) (T : TextCrates) (entry : Entry) : Prop :=
  entry.publicKey.Writable C T ∧ (entry.configOpts = [] ∨ entry.publicKey.comment ≠ [])

theorem printable_iff (hC : C.CertRoundTrips) (hT : T.Strict) {line : Text} {entry : Entry}
    (hlen : line.len ≤ C.sizeMax) (h : Entry.fromStr C T line = .ok entry) :
    (∃ s, entry.toString C T = .ok s ∧ Entry.fromStr C T s = .ok entry) ↔ entry.Printable C T := by
  obtain ⟨⟨comment, hkey⟩, hopts⟩ := lined_of_fromStr hC.toLawful hT.toLawful hlen h
  have hempty : entry.publicKey.comment ≠ [] ↔ comment ≠ [] := by
    rw [hkey.written, not_iff_not]
    exact ⟨fun h => utf8_inj (show comment.utf8 = Text.utf8 [] from h), fun h => by rw [h]; rfl⟩
  unfold Entry.Printable
  rw [hempty]
  constructor
  · rintro ⟨s, hs, hback⟩
    obtain ⟨t, ht, -⟩ := toString_entry_ok.1 hs
    exact ⟨(toString_lined hC hT.toRoundTrips hkey ht).1, (fromStr_toString_iff hC hT hkey hopts hs).1 hback⟩
  · rintro ⟨hwritable, hcomment⟩
    obtain ⟨t, ht⟩ := toString_of_writable hC.toLawful hT.toRoundTrips hkey hwritable
    have hs := toString_entry_ok.2 ⟨t, ht, rfl⟩
    exact ⟨_, hs, (fromStr_toString_iff hC hT hkey hopts hs).2 hcomment⟩

end

/-- **When entries come back.**  An entry that was read from a line is read from its own text just when its key can be
written and its options, if there are any, have a comment behind the key; and such entries are what the iterator yields
from their file, in order, just when also none has a `#` in its options or comment, and no comment a line feed. -/
theorem authorized_keys_round_trip_iff (C : Crates) (T : TextCrates) (hC : C.CertRoundTrips) (hT : T.Strict) :
    (∀ line entry, line.len ≤ C.sizeMax → Entry.fromStr C T line = .ok entry →
      ((∃ s, entry.toString C T = .ok s ∧ Entry.fromStr C T s = .ok entry) ↔ entry.Printable C T)) ∧
    ∀ entries : List Entry, (∀ entry ∈ entries, ∃ line : Text, line.len ≤ C.sizeMax ∧
        Entry.fromStr C T line = .ok entry) →
      ((∃ text, writeLines C T entries = .ok text ∧ items (Entry.fromStr C T) text = entries.map .ok) ↔
        ∀ entry ∈ entries, entry.Printable C T ∧ entry.Clean T) := by
  refine ⟨fun line entry hlen h => printable_iff hC hT hlen h, fun entries hentries => ?_⟩
  have hlines : (∀ entry ∈ entries, entry.Clean T) → ∀ entry ∈ entries, ∀ s, entry.toString C T = .ok s →
      '\n' ∉ s ∧ '#' ∉ s ∧ trimEnd s = s ∧ s ≠ [] := by
    intro hclean entry hentry s hs
    obtain ⟨line, hlen, h⟩ := hentries entry hentry
    obtain ⟨⟨comment, hkey⟩, hopts⟩ := lined_of_fromStr hC.toLawful hT.toLawful hlen h
    exact toString_clean hC hT hkey hopts (hclean entry hentry) hs
  have hprintable : ∀ entry ∈ entries,
      ((∃ s, entry.toString C T = .ok s ∧ Entry.fromStr C T s = .ok entry) ↔ entry.Printable C T) := by
    intro entry hentry
    obtain ⟨line, hlen, h⟩ := hentries entry hentry
    exact printable_iff hC hT hlen h
  constructor
  · rintro ⟨text, htext, hitems⟩ entry hentry
    have hclean : ∀ entry ∈ entries, entry.Clean T := by
      intro entry hentry
      have hread : .ok entry ∈ items (Entry.fromStr C T) text := by
        rw [hitems]
        exact List.mem_map_of_mem hentry
      exact clean_of_mem_items hC.toLawful hT hread
    have hback := (items_writeLines htext (hlines hclean)).1 hitems entry hentry
    exact ⟨(hprintable entry hentry).1 hback, hclean entry hentry⟩
  · intro h
    have hback := fun entry hentry => (hprintable entry hentry).2 (h entry hentry).1
    obtain ⟨text, htext⟩ := writeLines_total fun entry hentry => (hback entry hentry).imp fun _ => And.left
    exact ⟨text, htext, (items_writeLines htext (hlines fun entry hentry => (h entry hentry).2)).2 hback⟩

def Sample.entryLine : Text := Sample.certAuthority ++ ' ' :: Sample.keyLine (' ' :: Sample.comment)

def Sample.entry : Entry := ⟨Sample.certAuthority, Sample.key Sample.comment⟩

theorem authorized_keys_round_trip_sample :
    (∃ s, Sample.entry.toString Rfc4251.wireCrates Rfc4648.lineCrates = .ok s ∧
      Entry.fromStr Rfc4251.wireCrates Rfc4648.lineCrates s = .ok Sample.entry) ∧
    ∃ text, writeLines Rfc4251.wireCrates Rfc4648.lineCrates [Sample.entry, Sample.entry] = .ok text ∧
      items (Entry.fromStr Rfc4251.wireCrates Rfc4648.lineCrates) text = [.ok Sample.entry, .ok Sample.entry] := by
  obtain ⟨hline, hfile⟩ := authorized_keys_round_trip_iff Rfc4251.wireCrates Rfc4648.lineCrates
    Rfc4251.wireCrates_roundTrips Rfc4648.lineCrates_strict
  have hlen : Sample.entryLine.len ≤ Rfc4251.wireCrates.sizeMax := by decide +kernel
  have hread : Entry.fromStr Rfc4251.wireCrates Rfc4648.lineCrates Sample.entryLine = .ok Sample.entry := by
    decide +kernel
  have hroom : Room Rfc4251.wireCrates 27 Sample.name Sample.comment := by
    unfold Room
    decide +kernel
  have hprintable : Sample.entry.Printable Rfc4251.wireCrates Rfc4648.lineCrates :=
    ⟨Sample.other_writable Rfc4648.lineCrates_roundTrips hroom, .inr (by decide +kernel)⟩
  have hclean : Sample.entry.Clean Rfc4648.lineCrates := by
    unfold Entry.Clean Sample.entry Sample.key
    dsimp only
    rw [asStrLossy_utf8 Rfc4648.lineCrates_roundTrips]
    decide
  refine ⟨(hline _ _ hlen hread).2 hprintable, (hfile [Sample.entry, Sample.entry] ?_).2 ?_⟩
  · simpa using ⟨_, hlen, hread⟩
  · simpa using ⟨hprintable, hclean⟩

/-- With a space at its end, a line of options and a key without a comment is accepted, and the text of its entry is not;
and a comment with a `#` is cut in a file. -/
theorem authorized_keys_not_read_back :
    Entry.fromStr Rfc4251.wireCrates Rfc4648.lineCrates (Sample.certAuthority ++ ' ' :: Sample.keyLine " ".toList)
      = .ok ⟨Sample.certAuthority, Sample.key []⟩ ∧
    (do let s ← Entry.toString Rfc4251.wireCrates Rfc4648.lineCrates ⟨Sample.certAuthority, Sample.key []⟩
        .ok (Entry.fromStr Rfc4251.wireCrates Rfc4648.lineCrates s).isOk) = .ok false ∧
    Entry.fromStr Rfc4251.wireCrates Rfc4648.lineCrates (Sample.keyLine " a#b".toList)
      = .ok ⟨[], Sample.key "a#b".toList⟩ ∧
    (do let text ← writeLines Rfc4251.wireCrates Rfc4648.lineCrates [⟨[], Sample.key "a#b".toList⟩]
        .ok (items (Entry.fromStr Rfc4251.wireCrates Rfc4648.lineCrates) text))
      = .ok [.ok ⟨[], Sample.key "a".toList⟩] := by
  decide +kernel

end Ssh
end Wolf
