import MiniSharp.Proofs.ChosenNames
import MiniSharp.Proofs.Literals
import MiniSharp.Proofs.Nesting

namespace MiniSharp.Target

open MiniSharp.Text (byte Clean)

theorem tidy_of_printable {b : UInt8} {rest : Text}
    (h : ∀ c ∈ b :: rest, 0x20 < c.toNat ∧ c.toNat < 0x7F) : Tidy (b :: rest) := by
  refine ⟨Text.clean_of_printable fun c hc => ⟨(h c hc).1.le, (h c hc).2⟩, b, rest, rfl, ?_⟩
  rintro rfl
  exact absurd (h _ List.mem_cons_self).1 (by decide)

theorem word_printable {b : UInt8} (h : Lexer.isWordByte b = true) :
    0x20 < b.toNat ∧ b.toNat < 0x7F := by
  simp only [Lexer.isWordByte, Text.isLetter, Text.isDigit, Bool.or_eq_true, Bool.and_eq_true,
    decide_eq_true_eq, beq_iff_eq, UInt8.le_iff_toNat_le, ← UInt8.toNat_inj] at h
  change ((97 ≤ b.toNat ∧ b.toNat ≤ 122 ∨ 65 ≤ b.toNat ∧ b.toNat ≤ 90) ∨ b.toNat = 95) ∨
    48 ≤ b.toNat ∧ b.toNat ≤ 57 at h
  omega

theorem Identifier.tidy {x : Text} (h : Identifier x) : Tidy x := by
  cases h with
  | plain hx =>
    obtain ⟨b, rest, rfl, -⟩ := hx.start
    exact tidy_of_printable fun c hc => word_printable (hx.word c hc)
  | @escaped k hk =>
    have hall : keywords.all (List.all · Lexer.isWordByte) = true := by decide +kernel
    have hword := List.all_eq_true.mp (List.all_eq_true.mp hall k hk)
    refine tidy_of_printable (List.forall_mem_cons.mpr ⟨by decide, fun c hc => ?_⟩)
    exact word_printable (hword c hc)

theorem tidy_ofList {c : Char} {cs : List Char} (hc : 0x20 < c.toNat ∧ c.toNat < 0x7F)
    (hcs : cs.any (Text.IsControl ·) = false) :
    Tidy (Text.ofString (String.ofList (c :: cs))) := by
  refine ⟨Text.clean_ofList ?_, c.toNat.toUInt8, ?_⟩
  · rw [List.any_cons, hcs, Bool.or_false, decide_eq_false_iff_not, Text.IsControl]
    omega
  · rw [Text.ofString_ofList, List.flatMap_cons, Text.encode_ascii (by omega)]
    refine ⟨_, rfl, fun hblank => ?_⟩
    have hnat := congrArg UInt8.toNat hblank
    rw [Text.toNat_toUInt8 (by omega)] at hnat
    change c.toNat = 0x20 at hnat
    omega

theorem code_ofList {c d : Char} {cs : List Char} (hc : 0x20 < c.toNat ∧ c.toNat < 0x7F)
    (hcs : (d :: cs).any (Text.IsControl ·) = false) :
    CodeText (Text.ofString (String.ofList (c :: d :: cs))) := by
  have htidy := tidy_ofList hc hcs
  have hlong : ∀ b : UInt8, Text.ofString (String.ofList (c :: d :: cs)) ≠ [b] := by
    intro b he
    have hlength := congrArg List.length he
    rw [Text.ofString_ofList, List.flatMap_cons, List.flatMap_cons, Text.encode_ascii (by omega)]
      at hlength
    have hne := List.length_pos_of_ne_nil (Text.encode_ne_nil d.toNat)
    simp only [List.length_append, List.length_singleton] at hlength
    omega
  exact ⟨htidy.clean, htidy.start, hlong _, hlong _⟩

theorem tidy_digits {ds : Text} (hne : ds ≠ []) (h : ∀ b ∈ ds, Text.isDigit b) : Tidy ds := by
  obtain ⟨b, rest, rfl⟩ := List.exists_cons_of_ne_nil hne
  exact tidy_of_printable fun c hc => word_printable (by simp [Lexer.isWordByte, h c hc])

theorem tidy_ofInt (i : Int) : Tidy (Text.ofInt i) := by
  have hdigits := tidy_digits (Text.decimal_ne_nil i.natAbs) (Text.isDigit_decimal i.natAbs)
  unfold Text.ofInt
  split
  · exact ⟨(Text.clean_byte (by decide)).append hdigits.clean, _, _, rfl, by decide⟩
  · exact hdigits

theorem tidy_float {t : Token} (h : t.Spelt) (hk : t.kind = .floatLiteral) : Tidy t.text := by
  rcases h with hu | ⟨bytes, hs⟩
  · cases hk.symm.trans hu
  · rw [hk] at hs
    generalize t.text = text at hs
    cases hs with
    | float hw hf =>
      exact (tidy_digits hw.nonempty hw.digit).append
        ((Text.clean_byte (by decide)).append (tidy_digits hf.nonempty hf.digit).clean)

theorem tidy_charLiteral (value : UInt8) : Tidy (charLiteral value) := by
  obtain ⟨cs, hcs, hescaped⟩ := exists_escaped (.inr (Eq.refl '\x27')) (Char.ofUInt8 value)
  have hquote : Clean [Text.singleQuote] := Text.clean_byte (by decide)
  have hbody : Clean (escape Text.singleQuote value.toNat) :=
    ⟨cs, hcs, fun c hc => (hescaped.printable c hc).1⟩
  exact ⟨(hquote.append hbody).append hquote, _, _, rfl, by decide⟩

theorem tidy_stringLiteral (value : Text) : Tidy (stringLiteral value) := by
  obtain ⟨cs, hcs⟩ := Text.exists_decodes value
  obtain ⟨body, hbody, hprintable, -⟩ := exists_body cs
  have hquote : Clean [Text.doubleQuote] := Text.clean_byte (by decide)
  rw [stringLiteral, Text.codePoints_of_decodes hcs, List.flatMap_map, hbody]
  exact ⟨(hquote.append ⟨body, rfl, fun c hc => (hprintable c hc).1⟩).append hquote, _, _, rfl,
    by decide⟩

theorem tidy_typeName {type : Ty} (h : type.Proper) : Tidy (typeName type) := by
  cases type with
  | other => exact h.elim
  | int | float | char | bool | string => exact tidy_ofList (by decide) rfl

theorem clean_typeName (type : Ty) : Clean (typeName type) := by
  cases type with
  | other => exact .nil
  | int | float | char | bool | string => exact Text.clean_ofList rfl

theorem clean_defaultValue (type : Ty) : Clean (defaultValue type) := by
  cases type with
  | other => exact .nil
  | int | float | char | bool | string => exact Text.clean_ofList rfl

theorem clean_readValue (type : Ty) : Clean (readValue type) := by
  cases type with
  | other => exact .nil
  | int | float | char | bool | string => exact Text.clean_ofList rfl

theorem clean_operatorSpelling (op : TokenKind) : Clean op.operatorSpelling := by
  cases op with
  | operator o => cases o <;> exact Text.clean_ofList rfl
  | _ => exact .nil

theorem clean_join {ts : List Text} (h : ∀ t ∈ ts, Clean t) : Clean (Text.join ", " ts) := by
  have hcomma : Clean (", " : Text) := Text.clean_ofList rfl
  unfold Text.join
  induction ts with
  | nil => exact .nil
  | cons t ts ih =>
    obtain ⟨ht, hts⟩ := List.forall_mem_cons.mp h
    cases ts with
    | nil => exact (List.intercalate_singleton).symm ▸ ht
    | cons u us =>
      rw [List.intercalate_cons_cons]
      exact (ht.append hcomma).append (ih hts)

theorem renderList_eq_join (cs : List Expr) :
    Expr.renderList cs = Text.join ", " (cs.map Expr.render) := by
  induction cs with
  | nil => rfl
  | cons c cs ih =>
    cases cs with
    | nil => exact (List.intercalate_singleton).symm
    | cons d ds =>
      rw [Expr.renderList, ih]
      exact List.intercalate_cons_cons.symm

namespace Expr

theorem tidy_call {method : Text} {args : List Expr} (hm : Tidy method)
    (hargs : ∀ c ∈ args, Tidy c.render) : Tidy (Expr.call method args).render := by
  have hargs' : Clean (Text.join ", " (args.map render)) :=
    clean_join (List.forall_mem_map.mpr fun c hc => (hargs c hc).clean)
  rw [render, renderList_eq_join]
  refine hm.append (Clean.flatten ?_)
  simp only [List.forall_mem_cons]
  exact ⟨Text.clean_ofList rfl, hargs', Text.clean_ofList rfl, by simp⟩

theorem tidy_display {value : Expr} (h : Tidy value.render) :
    Tidy (Expr.display value).render := by
  rw [render]
  refine (tidy_ofList (by decide) rfl).append (Clean.flatten ?_)
  simp only [List.forall_mem_cons]
  exact ⟨h.clean, Text.clean_ofList rfl, by simp⟩

theorem tidy_unary {op : TokenKind} {operand : Expr} (h : Tidy operand.render) :
    Tidy (Expr.unary op operand).render := by
  rw [render]
  refine (tidy_ofList (by decide) rfl).append (Clean.flatten ?_)
  simp only [List.forall_mem_cons]
  exact ⟨clean_operatorSpelling op, h.clean, Text.clean_ofList rfl, by simp⟩

theorem tidy_binary {op : TokenKind} {left right : Expr} (hl : Tidy left.render)
    (hr : Tidy right.render) : Tidy (Expr.binary op left right).render := by
  have hblank : Clean (" " : Text) := Text.clean_ofList rfl
  rw [render]
  refine (tidy_ofList (by decide) rfl).append (Clean.flatten ?_)
  simp only [List.forall_mem_cons]
  exact ⟨hl.clean, hblank, clean_operatorSpelling op, hblank, hr.clean,
    Text.clean_ofList rfl, by simp⟩

end Expr

theorem Stmt.linesAll_append (ss ts : List Stmt) :
    Stmt.linesAll (ss ++ ts) = Stmt.linesAll ss ++ Stmt.linesAll ts := by
  induction ss with
  | nil => rfl
  | cons s ss ih => rw [List.cons_append, Stmt.linesAll, ih, Stmt.linesAll, List.append_assoc]

end MiniSharp.Target

namespace MiniSharp.Lowering

open Target (Tidy)

theorem literal_tidy {t : Token} {value : Literal} {c : Target.Expr} (ht : t.Spelt)
    (hv : Parser.literal? t = some (.ok value)) (h : literal t value = .ok c) : Tidy c.render := by
  cases value with
  | int value =>
    cases h
    exact Target.tidy_ofInt value
  | float value =>
    cases h
    have hk : t.kind = .floatLiteral := by
      unfold Parser.literal? at hv
      split at hv
      · split at hv <;> cases hv
      · assumption
      all_goals cases hv
    exact (Target.tidy_float ht hk).append (Text.clean_ofList rfl)
  | char value =>
    cases h
    exact Target.tidy_charLiteral value
  | bool value =>
    cases h
    cases value with
    | true => exact Target.tidy_ofList (by decide) rfl
    | false => exact Target.tidy_ofList (by decide) rfl
  | string value =>
    cases h
    exact Target.tidy_stringLiteral value
  | untyped => cases h

theorem operand_tidy {c c' : Target.Expr} (hc : Tidy c.render) (h : Emitted.Operand c c') :
    Tidy c'.render := by
  cases h with
  | kept => exact hc
  | shown => exact Target.Expr.tidy_display hc

variable {given : SymbolId → Text} {names : Names}

mutual

theorem expr_tidy (hgiven : ∀ id, Target.Identifier (given id)) (hf : names.Follows given)
    {c : Target.Expr} : (e : Expr Note) → e.Formed Token.Spelt → expr names e = .ok c →
      Tidy c.render
  | .literal note t value, he, h => literal_tidy he.1 he.2 (by rwa [expr] at h)
  | .ident note t name, _, h => by
    simp only [expr, bind_eq_ok, pure_eq_ok] at h
    obtain ⟨g, hg, rfl⟩ := h
    obtain ⟨x, -, rfl⟩ := givenName_follows hf hg
    exact (hgiven x.id).tidy
  | .call note t name args, he, h => by
    by_cases hm : name = Typing.entryName
    · rw [expr, if_pos hm, pure_eq_ok] at h
      subst h
      exact Target.tidy_ofList (by decide) rfl
    · rw [expr, if_neg hm] at h
      simp only [bind_eq_ok, pure_eq_ok] at h
      obtain ⟨cs, hcs, g, hg, rfl⟩ := h
      obtain ⟨x, -, rfl⟩ := givenName_follows hf hg
      exact Target.Expr.tidy_call (hgiven x.id).tidy (exprs_tidy hgiven hf args he.2 hcs)
  | .unary note t op operand, he, h => by
    simp only [expr, bind_eq_ok, pure_eq_ok] at h
    obtain ⟨c, hc, rfl⟩ := h
    exact Target.Expr.tidy_unary (expr_tidy hgiven hf operand he.2.2.2 hc)
  | .binary note t op left right, he, h => by
    obtain ⟨l, r, l', r', hl, hr, hol, hor, rfl, -⟩ := binary_operands h
    obtain ⟨-, -, -, hleft, hright⟩ := he
    exact Target.Expr.tidy_binary (operand_tidy (expr_tidy hgiven hf left hleft hl) hol)
      (operand_tidy (expr_tidy hgiven hf right hright hr) hor)
  | .foreign .., he, _ => he.elim

theorem exprs_tidy (hgiven : ∀ id, Target.Identifier (given id)) (hf : names.Follows given)
    {cs : List Target.Expr} : (es : List (Expr Note)) → Expr.AllFormed Token.Spelt es →
      exprs names es = .ok cs → ∀ c ∈ cs, Tidy c.render
  | [], _, h => by
    simp only [exprs, pure_eq_ok] at h
    subst h
    simp
  | e :: rest, he, h => by
    simp only [exprs, bind_eq_ok, pure_eq_ok] at h
    obtain ⟨c, hc, cs, hcs, rfl⟩ := h
    exact List.forall_mem_cons.mpr
      ⟨expr_tidy hgiven hf e he.1 hc, exprs_tidy hgiven hf rest he.2 hcs⟩

end

end MiniSharp.Lowering

namespace MiniSharp.Emitted

open Target (Tidy Nested Line)

variable {given : SymbolId → Text}

def TidyCode (_ : Expr Note) (c : Target.Expr) : Prop := Tidy c.render

theorem SimpleCode.tidy (hgiven : ∀ id, Target.Identifier (given id)) {s : Stmt Note}
    {c : Target.Simple} (h : SimpleCode given TidyCode s c) (hs : s.Formed Token.Spelt) :
    Tidy c.render := by
  have hequals : Text.Clean (" = " : Text) := Text.clean_ofList rfl
  have hblank : Text.Clean (" " : Text) := Text.clean_ofList rfl
  cases h with
  | declare =>
    exact ((((Target.tidy_typeName hs.2.1).append hblank).append (hgiven _).tidy.clean).append
      hequals).append (Target.clean_defaultValue _)
  | declareWith _ hv =>
    exact ((((Target.tidy_typeName hs.2.1).append hblank).append (hgiven _).tidy.clean).append
      hequals).append hv.clean
  | assign _ hv => exact ((hgiven _).tidy.append hequals).append hv.clean
  | call _ hv => exact hv
  | discard _ hv => exact (Target.tidy_ofList (by decide) rfl).append hv.clean

theorem clause_nested (hgiven : ∀ id, Target.Identifier (given id)) {o : Option (Stmt Note)}
    {c : Option Target.Simple} (h : Option.Rel (SimpleCode given TidyCode) o c)
    (ho : Stmt.OptFormed Token.Spelt o) :
    Nested (Target.Stmt.linesAll (c.map Target.Stmt.simple).toList) := by
  cases h with
  | none => exact .nil
  | some hs => exact .append (.code ((hs.tidy hgiven ho).code (by simp))) .nil

theorem clause_clean (hgiven : ∀ id, Target.Identifier (given id)) {o : Option (Stmt Note)}
    {c : Option Target.Simple} (h : Option.Rel (SimpleCode given TidyCode) o c)
    (ho : Stmt.OptFormed Token.Spelt o) : ∀ s ∈ c, Text.Clean s.render := by
  cases h with
  | none => simp
  | some hs =>
    intro s hmem
    obtain rfl := Option.some.inj hmem
    exact (hs.tidy hgiven ho).clean

theorem condition_clean {o : Option (Expr Note)} {c : Option Target.Expr}
    (h : Option.Rel TidyCode o c) : ∀ e ∈ c, Text.Clean e.render := by
  cases h with
  | none => simp
  | some hc =>
    intro e hmem
    obtain rfl := Option.some.inj hmem
    exact hc.clean

theorem forHeader_clean {i s : Option Target.Simple} {e : Option Target.Expr}
    (hi : ∀ s ∈ i, Text.Clean s.render) (he : ∀ c ∈ e, Text.Clean c.render)
    (hs : ∀ c ∈ s, Text.Clean c.render) : Text.Clean (Target.forHeader i e s) := by
  have hsemicolon : Text.Clean (";" : Text) := Text.clean_ofList rfl
  have hblank : Text.Clean [Text.blank] := Text.clean_byte (by decide)
  have hinit : Text.Clean (i.elim [] Target.Simple.render) := by
    cases i with
    | none => exact .nil
    | some s => exact hi s rfl
  have hcond : Text.Clean (e.elim [] fun e => Text.blank :: e.render) := by
    cases e with
    | none => exact .nil
    | some e => exact hblank.append (he e rfl)
  have hstep : Text.Clean (s.elim [] fun s => Text.blank :: s.render) := by
    cases s with
    | none => exact .nil
    | some s => exact hblank.append (hs s rfl)
  exact (((hinit.append hsemicolon).append hcond).append hsemicolon).append hstep

theorem head_code {t : Text} (hw : Tidy t) {c : Text} (hc : Text.Clean c) :
    Target.CodeText (t ++ c ++ ")") :=
  (hw.append hc).code (by simp)

mutual

theorem StmtCode.nested (hgiven : ∀ id, Target.Identifier (given id)) {s : Stmt Note}
    {c : Target.Stmt} : StmtCode given TidyCode s c → s.Formed Token.Spelt → Nested c.lines
  | .simple h, hs => .code ((h.tidy hgiven hs).code (by simp))
  | .print hv, _ => by
    refine .code (Tidy.code ?_ (by simp))
    exact (Target.tidy_ofList (by decide) rfl).append (Target.Expr.tidy_display hv).clean
  | .read _ _, _ => by
    refine .cons (Target.code_ofList (by decide) rfl) (.code (Tidy.code ?_ (by simp)))
    exact ((hgiven _).tidy.append (Text.clean_ofList rfl)).append (Target.clean_readValue _)
  | .ret hv, _ =>
    .code (((Target.tidy_ofList (by decide) rfl).append hv.clean).code (by simp))
  | .ifThen hc hb, hs =>
    .cons (head_code (Target.tidy_ofList (by decide) rfl) hc.clean)
      (.block (hb.nested hgiven hs.2.2.2))
  | .ifElse hc hb he, hs =>
    .cons (head_code (Target.tidy_ofList (by decide) rfl) hc.clean)
      (.append (.block (hb.nested hgiven hs.2.2.2.1))
        (.cons (Target.code_ofList (by decide) rfl)
          (.block (he.nested hgiven hs.2.2.2.2.2))))
  | .whileDo hc hb, hs =>
    .cons (head_code (Target.tidy_ofList (by decide) rfl) hc.clean)
      (.block (hb.nested hgiven hs.2.2.2))
  | .forHeader hi hc hst hb, hs => by
    obtain ⟨-, -, hinit, -, -, hstep, -, hbody⟩ := hs
    refine .cons (head_code (Target.tidy_ofList (by decide) rfl) ?_)
      (.block (hb.nested hgiven hbody))
    exact forHeader_clean (clause_clean hgiven hi hinit) (condition_clean hc)
      (clause_clean hgiven hst hstep)
  | .forAsWhile hi hc hst hb, hs => by
    obtain ⟨-, -, hinit, -, -, hstep, -, hbody⟩ := hs
    rw [Target.Stmt.lines, Target.Stmt.linesAll_append, Target.Stmt.linesAll, Target.Stmt.lines,
      Target.Stmt.linesAll_append, Target.Stmt.linesAll, List.append_nil]
    refine .block (.append (clause_nested hgiven hi hinit) (.cons (head_code ?_ ?_) (.block ?_)))
    · exact Target.tidy_ofList (by decide) rfl
    · cases hc with
      | none => exact Text.clean_ofList rfl
      | some hc => exact hc.clean
    · exact .append (hb.nested hgiven hbody) (clause_nested hgiven hst hstep)
  | .block hb, hs => .block (hb.nested hgiven hs.2)

theorem StmtsCode.nested (hgiven : ∀ id, Target.Identifier (given id)) {ss : List (Stmt Note)}
    {cs : List Target.Stmt} : StmtsCode given TidyCode ss cs → Stmt.AllFormed Token.Spelt ss →
      Nested (Target.Stmt.linesAll cs)
  | .nil, _ => .nil
  | .cons h hr, hs => .append (h.nested hgiven hs.1) (hr.nested hgiven hs.2)

end

theorem MethodCode.nested (hgiven : ∀ id, Target.Identifier (given id)) {f : Func Note}
    {m : Target.Method} (h : MethodCode given TidyCode f m) (hf : f.Formed Token.Spelt) :
    Nested m.lines := by
  obtain ⟨x, -, hname⟩ := h.name
  have hbody : Nested (Target.Stmt.linesAll m.body) := by
    obtain ⟨code, hcode, hb⟩ := h.body
    have hnested := hcode.nested hgiven hf.body
    rcases hb with hb | hb
    · rwa [hb]
    · rw [hb, Target.Stmt.linesAll_append]
      refine .append hnested (.append (.code (Tidy.code ?_ (by simp))) .nil)
      exact (Target.tidy_ofList (by decide) rfl).append (Target.clean_defaultValue _)
  have hparams : ∀ t ∈ m.params.map Target.Local.render, Text.Clean t := by
    refine List.forall_mem_map.mpr fun l hl => ?_
    obtain ⟨p, -, -, y, -, hy⟩ := exists_of_forall₂ h.params.flip hl
    rw [Target.Local.render, hy]
    exact ((Target.clean_typeName _).append (Text.clean_ofList rfl)).append
      (hgiven _).tidy.clean
  have hhead : Target.CodeText m.head := by
    unfold Target.Method.head
    split
    · exact Target.code_ofList (by decide) rfl
    · refine Tidy.code ?_ (by simp)
      rw [hname]
      exact (((((Target.tidy_ofList (by decide) rfl).append
        (Target.clean_typeName _)).append (Text.clean_ofList rfl)).append
        (hgiven _).tidy.clean).append (Text.clean_ofList rfl)).append
        (Target.clean_join hparams)
  refine .cons hhead (.block (.append ?_ hbody))
  split
  · exact .code (Target.code_ofList (by decide) rfl)
  · exact .nil

end MiniSharp.Emitted

namespace MiniSharp

open Target (Nested Line WellStructured)

theorem Target.methodLines_nested {ms : List Target.Method} (h : ∀ m ∈ ms, Nested m.lines) :
    Nested (methodLines ms) := by
  unfold methodLines
  induction ms with
  | nil => exact .nil
  | cons m ms ih =>
    obtain ⟨hm, hms⟩ := List.forall_mem_cons.mp h
    cases ms with
    | nil => exact (List.intercalate_singleton).symm ▸ hm
    | cons n ns =>
      rw [List.map_cons, List.map_cons, List.intercalate_cons_cons]
      exact .append (.append hm .blank) (ih hms)

theorem Target.runtime_nested : Nested runtime := by
  unfold runtime showMethods
  simp only [List.map_cons, List.map_nil]
  refine .cons (code_ofList (by decide) rfl) (.block ?_)
  refine .cons (code_ofList (by decide) rfl) ?_
  refine .cons (code_ofList (by decide) rfl) ?_
  refine .cons (code_ofList (by decide) rfl) ?_
  refine .cons (code_ofList (by decide) rfl) ?_
  exact .code (code_ofList (by decide) rfl)

theorem Target.fileLines_nested {ms : List Target.Method} (h : ∀ m ∈ ms, Nested m.lines) :
    Nested (fileLines ms) := by
  unfold fileLines
  refine .append (.cons ?_ (.cons ?_ (.cons ?_ (.append .blank (.code ?_))))) (.block ?_)
  · exact code_ofList (by decide) rfl
  · exact code_ofList (by decide) rfl
  · exact code_ofList (by decide) rfl
  · exact code_ofList (by decide) rfl
  · refine .append (.cons ?_ (.block (methodLines_nested h))) (.append .blank runtime_nested)
    exact code_ofList (by decide) rfl

/-- Every source that checks is compiled to a file of encoded characters, without control characters
but the newlines that end its lines, and indented as its braces are nested. -/
theorem emitted_files_well_structured {source : Text} {a : Analysis} (h : check source = .ok a) :
    ∃ text, compile source = .ok text ∧ WellStructured text := by
  obtain ⟨hform, methods, -, hcompile, given, hgiven, hcode⟩ :=
    check_code (E := fun _ => Emitted.TidyCode) h fun given Γ hgiven names e c hf he _ hc =>
      Lowering.expr_tidy hgiven hf e he hc
  rw [Target.renderFile_eq_lines] at hcompile
  refine ⟨_, hcompile, Nested.wellStructured (Target.fileLines_nested fun m hm => ?_) ?_⟩
  · obtain ⟨f, hf, hfm⟩ := exists_of_forall₂ hcode.flip hm
    exact hfm.nested hgiven (hform f hf)
  · exact List.cons_ne_nil _ _

def braceLiteral : Text :=
  Text.ofString "func main(): int \x7b while (1 < 2) \x7b print(\"\x7d\n\t\x7b" ++ [0xFF, 0x80] ++
    Text.ofString "\"); return 0; \x7d return 1; \x7d"

theorem emitted_files_well_structured_braceLiteral :
    ∃ a text, check braceLiteral = .ok a ∧ compile braceLiteral = .ok text ∧
      WellStructured text := by
  have hok : (check braceLiteral).isOk := by
    rw [braceLiteral, Text.ofString_ofList, Text.ofString_ofList]
    decide +kernel
  obtain ⟨a, ha⟩ := exists_of_isOk hok
  obtain ⟨text, htext, hstructured⟩ := emitted_files_well_structured ha
  exact ⟨a, text, ha, htext, hstructured⟩

end MiniSharp
