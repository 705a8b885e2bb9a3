import StackLang.Code.Listing
import StackLang.Proofs.Code.Link
import StackLang.Proofs.Text.Quoted
import StackLang.Proofs.Text.Utf8
import StackLang.Proofs.Token.Bytes

/-!
# What a listing tells of a program

A listing is cut into its lines, and a line into its address and what is shown there. So two programs with
one listing show the same operation and the same operand at each address, and the same strings. The text
of an operand tells the operand, unless it is a label: of a label it shows the name and where it leads.
Names are shown as they are, so none may be of several lines.

Results:
* `Program.rows_of_listing`: programs with one listing show the same at each address.
* `Program.operand_of_operandText?`, `Program.target_of_operandText?`: what the text of an operand tells.
* `StringPool.bytes_of_staticLines`: the lines of static data tell the data.
-/
namespace StackLang

/-! ## Strings of static data -/

theorem ne_zero_of_mem_utf8 {text : String} (h : '\x00' ∉ text.toList) {b : UInt8}
    (hb : b ∈ utf8 text) : b ≠ 0 := by
  rintro rfl
  obtain ⟨c, hc, hbyte⟩ := List.mem_flatMap.1 hb
  obtain ⟨b, hencode, rfl, -⟩ | ⟨b, later, hencode, -, -, hhigh⟩ := Token.utf8EncodeChar_cases c
  · rw [hencode, List.mem_singleton] at hbyte
    rw [← hbyte] at hc
    exact h hc
  · rw [hencode] at hbyte
    exact absurd (hhigh 0 hbyte) (by decide)

/-- The bytes of texts, a NUL after each. -/
def nulEnded (texts : List String) : List UInt8 := texts.flatMap fun text => utf8 text ++ [0]

theorem staticRows_of_ne_nil {data : List UInt8} (h : data ≠ []) (offset : Nat) :
    staticRows offset data = (offset, data.takeWhile (· ≠ 0)) ::
      staticRows (offset + (data.takeWhile (· ≠ 0)).length + 1)
        (data.drop ((data.takeWhile (· ≠ 0)).length + 1)) := by
  cases data with
  | nil => exact absurd rfl h
  | cons b bytes => rw [staticRows, List.drop_succ_cons]

theorem all_ne_zero {s : List UInt8} (hs : 0 ∉ s) : ∀ b ∈ s, decide (b ≠ 0) = true :=
  fun _ hb => decide_eq_true fun h => hs (h ▸ hb)

/-- The first string of static data is what stands before its first NUL. -/
theorem staticRows_cut {s : List UInt8} (hs : 0 ∉ s) (offset : Nat) (rest : List UInt8) :
    staticRows offset (s ++ 0 :: rest) = (offset, s) :: staticRows (offset + s.length + 1) rest := by
  have hrow : (s ++ 0 :: rest).takeWhile (· ≠ 0) = s := by
    rw [List.takeWhile_append_of_pos (all_ne_zero hs), List.takeWhile_cons_of_neg (by simp), List.append_nil]
  rw [staticRows_of_ne_nil (by simp), hrow, ← List.drop_drop, List.drop_left, List.drop_one,
    List.tail_cons]

/-- The lines of texts that hold no NUL tell the texts. -/
theorem texts_of_staticRows {a b : List String} (ha : ∀ text ∈ a, '\x00' ∉ text.toList)
    (hb : ∀ text ∈ b, '\x00' ∉ text.toList) (offset : Nat)
    (h : (staticRows offset (nulEnded a)).map (fun row => Program.staticLine row.1 row.2) =
      (staticRows offset (nulEnded b)).map fun row => Program.staticLine row.1 row.2) : a = b := by
  have rows {text : String} {texts : List String} (ht : '\x00' ∉ text.toList) (offset : Nat) :
      staticRows offset (nulEnded (text :: texts)) = (offset, utf8 text) ::
        staticRows (offset + (utf8 text).length + 1) (nulEnded texts) := by
    rw [nulEnded, List.flatMap_cons, List.append_assoc]
    exact staticRows_cut (fun hb => ne_zero_of_mem_utf8 ht hb rfl) offset _
  have none (offset : Nat) : staticRows offset (nulEnded []) = [] := by
    rw [nulEnded, List.flatMap_nil, staticRows]
  induction a generalizing b offset with
  | nil =>
    cases b with
    | nil => rfl
    | cons text b =>
      rw [none, rows (hb text List.mem_cons_self)] at h
      cases h
  | cons text a ih =>
    cases b with
    | nil =>
      rw [none, rows (ha text List.mem_cons_self)] at h
      cases h
    | cons text' b =>
      rw [rows (ha text List.mem_cons_self), rows (hb text' List.mem_cons_self), List.map_cons,
        List.map_cons] at h
      obtain ⟨hline, hlines⟩ := List.cons.inj h
      obtain rfl : text = text' := by
        have := quoted_inj ((String.append_right_inj _).1 hline)
        rwa [lossyText_utf8, lossyText_utf8] at this
      rw [ih (fun t ht => ha t (List.mem_cons_of_mem _ ht))
        (fun t ht => hb t (List.mem_cons_of_mem _ ht)) _ hlines]

/-- A text is made of texts without NUL. -/
theorem exists_nulEnded (text : String) : ∃ texts : List String,
    (∀ t ∈ texts, '\x00' ∉ t.toList) ∧ utf8 text ++ [0] = nulEnded texts := by
  obtain ⟨pieces, hpieces, heq⟩ := exists_pieces '\x00' text.toList
  refine ⟨pieces.map String.ofList, by simpa using hpieces, ?_⟩
  calc utf8 text ++ [0]
    _ = (text.toList ++ ['\x00']).flatMap String.utf8EncodeChar := by rw [List.flatMap_append]; rfl
    _ = pieces.flatMap fun piece => piece.flatMap String.utf8EncodeChar ++ [0] := by
      rw [heq, List.flatMap_assoc]
      simp only [List.flatMap_append]
      rfl
    _ = nulEnded (pieces.map String.ofList) := by
      rw [nulEnded, List.flatMap_map]
      simp only [utf8, String.toList_ofList]

theorem StringPool.exists_nulEnded (pool : StringPool) : ∃ texts : List String,
    (∀ t ∈ texts, '\x00' ∉ t.toList) ∧ pool.bytes = nulEnded texts := by
  rw [bytes]
  induction pool.strings with
  | nil => exact ⟨[], by simp, rfl⟩
  | cons text strings ih =>
    obtain ⟨first, hfirst, hbytes⟩ := StackLang.exists_nulEnded text
    obtain ⟨others, hothers, hrest⟩ := ih
    refine ⟨first ++ others, fun t ht => ?_, ?_⟩
    · rcases List.mem_append.1 ht with ht | ht
      · exact hfirst t ht
      · exact hothers t ht
    · rw [List.flatMap_cons, hbytes, hrest, nulEnded, nulEnded, nulEnded, List.flatMap_append]

/-- The lines of static data tell the data. -/
theorem StringPool.bytes_of_staticLines {a b : StringPool}
    (h : Program.staticLines a.bytes = Program.staticLines b.bytes) : a.bytes = b.bytes := by
  obtain ⟨x, hx, ha⟩ := a.exists_nulEnded
  obtain ⟨y, hy, hb⟩ := b.exists_nulEnded
  have rows {data : List UInt8} : ((Program.staticLines data).drop 1) =
      (staticRows 0 data).map fun row => Program.staticLine row.1 row.2 := by
    unfold Program.staticLines
    split
    · rename_i hempty
      rw [List.isEmpty_iff.1 hempty, staticRows]
      rfl
    · rfl
  have hrows := congrArg (List.drop 1) h
  rw [rows, rows, ha, hb] at hrows
  rw [ha, hb, texts_of_staticRows hx hy 0 hrows]

/-! ## Operands -/

theorem Opcode.ofMnemonic?_mnemonic (op : Opcode) : ofMnemonic? op.mnemonic = some op := by
  cases op <;> decide

theorem Opcode.mnemonic_inj {op op' : Opcode} (h : op.mnemonic = op'.mnemonic) : op = op' := by
  have := ofMnemonic?_mnemonic op
  rw [h, ofMnemonic?_mnemonic op'] at this
  exact (Option.some.inj this).symm

theorem Opcode.mnemonic_plain (op : Opcode) :
    ' ' ∉ op.mnemonic.toList ∧ '\n' ∉ op.mnemonic.toList := by
  cases op <;> decide

/-- The text of an instruction tells its operation, and whether and how its operand is shown. -/
theorem Instruction.textWith_inj {op op' : Opcode} {shown? shown'? : Option String}
    (h : textWith op shown? = textWith op' shown'?) : op = op' ∧ shown? = shown'? := by
  have longer {op op' : Opcode} {shown : String} (h : op.mnemonic = op'.mnemonic ++ " " ++ shown) :
      False := by
    apply (Opcode.mnemonic_plain op).1
    rw [h]
    simp
  cases shown? with
  | none =>
    cases shown'? with
    | none => exact ⟨Opcode.mnemonic_inj h, rfl⟩
    | some shown' => exact (longer h).elim
  | some shown =>
    cases shown'? with
    | none => exact (longer h.symm).elim
    | some shown' =>
      obtain ⟨hop, rfl⟩ := cutText_inj (c := ' ') (Opcode.mnemonic_plain op).1
        (Opcode.mnemonic_plain op').1 h
      exact ⟨Opcode.mnemonic_inj hop, rfl⟩

theorem Register.name_plain (r : Register) : '?' ∉ r.name.toList ∧ '\n' ∉ r.name.toList := by
  cases r <;> decide

theorem Register.name_inj {r r' : Register} (h : r.name = r'.name) : r = r' := by
  cases r <;> cases r' <;> first | rfl | exact absurd h (by decide)

theorem Register.operand_of_ofOperand? {operand : Int64} {r : Register}
    (h : ofOperand? operand = some r) : operand = r.operand := by
  obtain ⟨n, hn, hr⟩ := Option.bind_eq_some_iff.1 h
  have hid : r.id = n := by
    rcases n with _ | _ | _ | _ | _ | n <;> cases hr <;> rfl
  have hint : operand.toInt = r.id := by
    rw [hid]
    exact Int.mem_toNat?.1 hn
  rw [Register.operand, ← Int64.ofInt_eq_ofNat, ← hint, Int64.ofInt_toInt]

/-- The text of a register operand tells the operand. -/
theorem Register.operand_inj {x y : Int64}
    (h : ((ofOperand? x).map name).getD ("?" ++ toString x) =
      ((ofOperand? y).map name).getD ("?" ++ toString y)) : x = y := by
  have named {r : Register} {x : Int64} (h : r.name = "?" ++ toString x) : False := by
    apply (Register.name_plain r).1
    rw [h]
    simp
  cases hx : ofOperand? x with
  | none =>
    cases hy : ofOperand? y with
    | none =>
      rw [hx, hy] at h
      exact toString_int64_inj ((String.append_right_inj _).1 h)
    | some r' =>
      rw [hx, hy] at h
      exact (named h.symm).elim
  | some r =>
    cases hy : ofOperand? y with
    | none =>
      rw [hx, hy] at h
      exact (named h).elim
    | some r' =>
      rw [hx, hy] at h
      rw [operand_of_ofOperand? hx, operand_of_ofOperand? hy, name_inj h]

/-- Labels without names are shown by different texts. -/
theorem Label.text_inj {l k : Label} (h : l.text = k.text) : l = k := by
  have hdigits := congrArg String.toList ((String.append_right_inj _).1 h)
  have hid : l.id = k.id := repr_inj hdigits
  exact congrArg Label.mk hid

namespace Program

variable {p q : Program} {i j : Instruction} {l k : Label}

/-- The text of an operand that is no label tells the operand. -/
theorem operand_of_operandText? (hop : i.opcode = j.opcode) (hshown : i.opcode.operandRole ≠ .unused)
    (hlabel : i.opcode.operandRole ≠ .label) (h : p.operandText? i = q.operandText? j) :
    i.operand = j.operand := by
  unfold operandText? Instruction.operandText? at h
  rw [← hop] at h
  generalize i.opcode.operandRole = role at *
  cases role with
  | unused => exact absurd rfl hshown
  | label => exact absurd rfl hlabel
  | literal => exact toString_int64_inj (Option.some.inj h)
  | slot => exact toString_int64_inj (Option.some.inj h)
  | register => exact Register.operand_inj (Option.some.inj h)
  | static =>
    have plain (x : Int64) : ' ' ∉ (toString x).toList := notMem_toString_int64 rfl (by decide) x
    exact toString_int64_inj (cutText_inj (c := ' ') (plain _) (plain _) (Option.some.inj h)).1

theorem operandText?_mark (hi : i.opcode = .mark) (hl : i.label? = some l) :
    p.operandText? i = some (p.labelName l) := by
  unfold operandText?
  rw [Instruction.role_of_label? hl, hl]
  exact if_pos hi

theorem operandText?_jump (hi : i.opcode ≠ .mark) (hl : i.label? = some l) :
    p.operandText? i = some (p.labelName l ++ " (" ++
      ((p.labels.resolve? l).map addressText).getD "????" ++ ")") := by
  unfold operandText?
  rw [Instruction.role_of_label? hl, hl]
  exact if_neg hi

/-- The text of a label tells where the label leads. -/
theorem target_of_operandText? (hop : i.opcode = j.opcode) (hmark : i.opcode ≠ .mark)
    (hl : i.label? = some l) (hk : j.label? = some k) {a b : Nat} (ha : p.labels.resolve? l = some a)
    (hb : q.labels.resolve? k = some b) (h : p.operandText? i = q.operandText? j) : a = b := by
  rw [operandText?_jump hmark hl, operandText?_jump (hop ▸ hmark) hk, ha, hb] at h
  have htext := congrArg String.toList ((String.append_left_inj _).1 (Option.some.inj h))
  simp only [String.toList_append, List.append_assoc] at htext
  have plain (a : Nat) : ' ' ∉ '(' :: (addressText a).toList := by
    have : ' ' ∉ (addressText a).toList := notMem_addressText rfl a
    simpa using this
  have := (cutLast_inj (plain a) (plain b) htext).2
  exact addressText_inj (String.toList_inj.1 (List.cons.inj this).2)

/-! ## Lines -/

/-- No name of a label is of several lines. -/
def NamesOnOneLine (p : Program) : Prop := ∀ id name, p.names.get? id = some name → '\n' ∉ name.toList

theorem newline_notMem_text (l : Label) : '\n' ∉ l.text.toList := fun h => by
  rw [Label.text, String.toList_append] at h
  rcases List.mem_append.1 h with h | h
  · revert h
    decide
  · exact notMem_repr rfl l.id h

theorem newline_notMem_labelName (hp : p.NamesOnOneLine) (l : Label) :
    '\n' ∉ (p.labelName l).toList := by
  unfold labelName
  cases h : p.names.get? l.id with
  | none => exact newline_notMem_text l
  | some name => exact hp _ _ h

theorem newline_notMem_operandText? (hp : p.NamesOnOneLine) {shown : String}
    (h : p.operandText? i = some shown) : '\n' ∉ shown.toList := by
  have hword (x : Int64) : '\n' ∉ (toString x).toList := notMem_toString_int64 rfl (by decide) x
  unfold operandText? Instruction.operandText? at h
  split at h
  · cases h
    simp [hword, newline_notMem_quoted]
  · split at h
    · cases h
      exact newline_notMem_labelName hp _
    · cases h
      have haddress (a : Nat) : '\n' ∉ (addressText a).toList := notMem_addressText rfl a
      cases p.labels.resolve? _ <;> simp [newline_notMem_labelName hp, haddress]
  · split at h
    · cases h
    · cases h
      exact hword _
    · cases h
      exact hword _
    · cases h
      exact hword _
    · cases h
      cases Register.ofOperand? i.operand <;> simp [hword, (Register.name_plain _).2]
    · cases h
      cases i.label? <;> simp [hword, newline_notMem_text]

theorem newline_notMem_codeLine (hp : p.NamesOnOneLine) (address : Nat) (i : Instruction) :
    '\n' ∉ (p.codeLine address i).toList := by
  have haddress : '\n' ∉ (addressText address).toList := notMem_addressText rfl address
  have hmnemonic := (Opcode.mnemonic_plain i.opcode).2
  unfold codeLine
  cases h : p.operandText? i with
  | none => simp [Instruction.textWith, haddress, hmnemonic]
  | some shown => simp [Instruction.textWith, haddress, hmnemonic, newline_notMem_operandText? hp h]

/-- A row of static data is one line, whatever bytes are in it. -/
theorem newline_notMem_staticLine (offset : Nat) (string : List UInt8) :
    '\n' ∉ (staticLine offset string).toList := by
  have haddress : '\n' ∉ (addressText offset).toList := notMem_addressText rfl offset
  simp [staticLine, haddress, newline_notMem_quoted]

theorem newline_notMem_staticLines {statics : List UInt8} {line : String}
    (h : line ∈ staticLines statics) : '\n' ∉ line.toList := by
  unfold staticLines at h
  split at h
  · cases h
  · rcases List.mem_cons.1 h with rfl | h
    · decide
    · obtain ⟨row, -, rfl⟩ := List.mem_map.1 h
      exact newline_notMem_staticLine row.1 row.2

/-- The lines of the instructions. -/
def codeLines (p : Program) : List String :=
  p.code.toList.zipIdx.map fun (i, address) => p.codeLine address i

theorem getElem?_codeLines (p : Program) (address : Nat) :
    p.codeLines[address]? = p.code[address]?.map (p.codeLine address) := by
  simp only [codeLines, List.getElem?_map, List.getElem?_zipIdx, Option.map_map, Array.getElem?_toList,
    Nat.zero_add]
  rfl

/-- What a listing shows of the instruction at an address: its operation and its operand. -/
def row? (p : Program) (address : Nat) : Option (Opcode × Option String) :=
  p.code[address]?.map fun i => (i.opcode, p.operandText? i)

theorem row?_of_codeLines (h : p.codeLines = q.codeLines) (address : Nat) :
    p.row? address = q.row? address := by
  have hline := congrArg (·[address]?) h
  simp only [getElem?_codeLines] at hline
  unfold row?
  cases hp : p.code[address]? with
  | none =>
    rw [hp] at hline
    rw [Option.map_eq_none_iff.1 hline.symm, Option.map_none, Option.map_none]
  | some i =>
    rw [hp] at hline
    obtain ⟨j, hj, hij⟩ := Option.map_eq_some_iff.1 hline.symm
    obtain ⟨hop, htext⟩ := Instruction.textWith_inj ((String.append_right_inj _).1 hij)
    rw [hj, Option.map_some, Option.map_some, hop, htext]

/-- The line before the strings is not one of an instruction. -/
theorem header_notMem_codeLines (p : Program) : "      ├─[Statics]" ∉ p.codeLines := fun h => by
  obtain ⟨address, hline⟩ := List.getElem?_of_mem h
  rw [getElem?_codeLines] at hline
  obtain ⟨i, -, hi⟩ := Option.map_eq_some_iff.1 hline
  have hbar : '│' ∈ (p.codeLine address i).toList := by simp [codeLine]
  rw [hi] at hbar
  revert hbar
  decide

/-- Where the strings start is known, as it is whether there are any. -/
theorem codeLines_inj
    (h : p.codeLines ++ staticLines p.statics = q.codeLines ++ staticLines q.statics) :
    p.codeLines = q.codeLines ∧ staticLines p.statics = staticLines q.statics := by
  have form (statics : List UInt8) : staticLines statics = [] ∨
      ∃ rows, staticLines statics = "      ├─[Statics]" :: rows := by
    unfold staticLines
    split
    · exact .inl rfl
    · exact .inr ⟨_, rfl⟩
  have hp := header_notMem_codeLines p
  have hq := header_notMem_codeLines q
  obtain hnone | ⟨rows, hrows⟩ := form p.statics <;>
    obtain hnone' | ⟨rows', hrows'⟩ := form q.statics
  · rw [hnone, hnone'] at h ⊢
    exact ⟨List.append_cancel_right h, rfl⟩
  · rw [hnone, hrows', List.append_nil] at h
    exact absurd (h ▸ List.mem_append_right _ List.mem_cons_self) hp
  · rw [hrows, hnone', List.append_nil] at h
    exact absurd (h ▸ List.mem_append_right _ List.mem_cons_self) hq
  · rw [hrows, hrows'] at h ⊢
    obtain ⟨hcode, rfl⟩ := cut_inj hp hq h
    exact ⟨hcode, rfl⟩

/-- Programs with one listing show the same at each address, and the same lines of static data. -/
theorem rows_of_listing (hp : p.NamesOnOneLine) (hq : q.NamesOnOneLine) (h : p.listing = q.listing) :
    (∀ address, p.row? address = q.row? address) ∧ staticLines p.statics = staticLines q.statics := by
  have plain {p : Program} (hp : p.NamesOnOneLine) : ∀ line ∈
      "      ╭─[Bytecode]" :: p.codeLines ++ staticLines p.statics ++ ["──────╯"],
      '\n' ∉ line.toList := by
    intro line hline
    simp only [List.mem_append, List.mem_cons, List.not_mem_nil, or_false] at hline
    obtain ((rfl | hline) | hline) | rfl := hline
    · decide
    · obtain ⟨x, -, rfl⟩ := List.mem_map.1 hline
      exact newline_notMem_codeLine hp _ _
    · exact newline_notMem_staticLines hline
    · decide
  have hlines := lines_inj (plain hp) (plain hq) h
  rw [List.cons_append, List.cons_append, List.cons_append, List.cons_append] at hlines
  have hboth := List.append_cancel_right (List.cons.inj hlines).2
  obtain ⟨hcode, hstatics⟩ := codeLines_inj hboth
  exact ⟨row?_of_codeLines hcode, hstatics⟩

end Program

end StackLang
