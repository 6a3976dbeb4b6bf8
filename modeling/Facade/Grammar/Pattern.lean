import Facade.Grammar.Terminal

/-!
# The declaration grammar

Which tokens follow each other in a source. Only the shape of declarations is described: member
bodies, initial values, default values and attribute arguments are opaque chunks between brackets.

* `Rule`: the phrases of the grammar, each with its name;
* `Pattern`: what a phrase is made of; `Pattern.first`, `Pattern.isNullable`, `Pattern.admits`;
* `Rule.follow`: what may stand after a phrase, wherever in a source it occurs;
* `Rule.body`: the pattern of each phrase.
-/

namespace Facade

/-- The phrases of the grammar. -/
inductive Rule where
  | source | usingDirective | qualifiedName | namespaceDeclaration | fileScopedNamespace
  | typeDeclaration | classDeclaration | structDeclaration | interfaceDeclaration
  | recordDeclaration | recordKind | enumDeclaration | delegateDeclaration | parameterBlock
  | baseList | baseType | typeParameterList | typeParameter | constraintClause | constraint
  | modifier | classBody | member | methodDeclaration | constructorDeclaration
  | constructorInitializer | destructorDeclaration | propertyDeclaration | indexerDeclaration
  | fieldDeclaration | variableDeclarator | operatorDeclaration | conversionDeclaration
  | memberName | memberBody | parameterList | parameter | parameterModifier | defaultValue
  | defaultArguments | type | typeSuffix | namedType | globalPrefix | simpleName
  | typeArgumentList | tupleType | tupleElement | predefinedType | attributeSection
  | attributeBrackets | argumentGroup | nestedArguments | expression | expressionBlock | block
  | nestedBlock
deriving Repr, DecidableEq, Inhabited

/-- What a phrase is made of.

`plus after p` is `p` once or more; `after` is what may stand after one of its repetitions, wherever
a list of that kind occurs. `resume r n p` makes the last `n` parts and those of `p` into the phrase
`r`: it serves phrases that can be told apart only after they have begun alike. -/
inductive Pattern where
  | token (t : Terminal)
  | rule (r : Rule)
  | seq (p q : Pattern)
  | alt (p q : Pattern)
  | opt (p : Pattern)
  | plus (after : TerminalSet) (p : Pattern)
  | resume (r : Rule) (n : Nat) (p : Pattern)
deriving Repr

/-! ## Sets of terminals -/

namespace TerminalSet

/-- The words that stand before a declaration. -/
def modifiers : TerminalSet := ofList [
  .publicKw, .privateKw, .protectedKw, .internalKw, .fileKw, .staticKw, .partialKw, .abstractKw,
  .sealedKw, .virtualKw, .overrideKw, .readonlyKw, .asyncKw, .newKw, .unsafeKw, .externKw,
  .requiredKw, .volatileKw, .constKw, .eventKw, .implicitKw, .explicitKw, .refKw, .fixedKw]

/-- The words that stand before a parameter. -/
def parameterModifiers : TerminalSet :=
  ofList [.refKw, .outKw, .inKw, .paramsKw, .thisKw, .scopedKw, .readonlyKw]

/-- The words that name a type. -/
def predefinedTypes : TerminalSet := ofList [
  .boolKw, .byteKw, .sbyteKw, .charKw, .decimalKw, .doubleKw, .floatKw, .intKw, .uintKw, .longKw,
  .ulongKw, .shortKw, .ushortKw, .objectKw, .stringKw, .voidKw]

/-- The words that open a type declaration after its modifiers. -/
def typeKinds : TerminalSet :=
  ofList [.classKw, .structKw, .interfaceKw, .recordKw, .enumKw, .delegateKw]

/-- What a type begins with. -/
def typeStart : TerminalSet := predefinedTypes ∪ ofList [.globalKw, .name, .leftParen]

/-- What a member begins with after its attributes and modifiers. -/
def memberCore : TerminalSet := typeKinds ∪ typeStart ∪ ofList [.tilde, .operatorKw]

/-- What a member begins with. -/
def memberStart : TerminalSet := modifiers ∪ memberCore ∪ single .leftBracket

/-- What may stand after a member. -/
def afterMember : TerminalSet := memberStart ∪ single .rightBrace

/-- What a declaration in a namespace begins with. -/
def namespaceMember : TerminalSet :=
  modifiers ∪ typeKinds ∪ ofList [.namespaceKw, .leftBracket]

/-- What may stand after a declaration in a namespace. -/
def afterNamespaceMember : TerminalSet := namespaceMember ∪ ofList [.rightBrace, .endOfInput]

/-- What may stand after a type declaration, be it a member or not. -/
def afterTypeDeclaration : TerminalSet := afterMember ∪ afterNamespaceMember

/-- What a using directive begins with. -/
def usingStart : TerminalSet := ofList [.globalKw, .usingKw]

/-- What may stand after a using directive. -/
def afterUsing : TerminalSet := usingStart ∪ afterNamespaceMember

/-- What may stand after a type. -/
def afterType : TerminalSet := ofList [
  .comma, .name, .leftBrace, .leftParen, .greater, .operatorKw, .rightParen, .semicolon, .thisKw,
  .whereKw, .arrow]

/-- What a suffix of a type begins with. -/
def typeSuffixStart : TerminalSet := ofList [.question, .leftBracket, .star]

/-- What may stand after a type that may still take a suffix. -/
def afterTypeCore : TerminalSet := afterType ∪ typeSuffixStart

/-- What may stand after a part of a dotted type name. -/
def afterNamePart : TerminalSet := afterTypeCore ∪ single .dot

/-- What may stand after the constraints of a declaration. -/
def afterConstraints : TerminalSet := ofList [.leftBrace, .semicolon, .whereKw, .arrow]

/-- What may stand after the base types of a declaration. -/
def afterBases : TerminalSet := ofList [.leftBrace, .semicolon, .whereKw]

/-- What may stand after a parameter. -/
def afterParameter : TerminalSet := ofList [.comma, .rightParen, .rightBracket]

/-- What a parameter begins with. -/
def parameterStart : TerminalSet := parameterModifiers ∪ typeStart ∪ single .leftBracket

/-- What may stand after an attribute section. -/
def afterAttributes : TerminalSet :=
  memberStart ∪ ofList [.inKw, .outKw, .paramsKw, .scopedKw, .thisKw]

end TerminalSet

namespace Rule

/-- The name of a phrase in the outline of a tree. -/
def title : Rule → String
  | source => "start"
  | usingDirective => "using_directive"
  | qualifiedName => "qualified_name"
  | namespaceDeclaration => "namespace_declaration"
  | fileScopedNamespace => "file_scoped_namespace"
  | typeDeclaration => "type_declaration"
  | classDeclaration => "class_declaration"
  | structDeclaration => "struct_declaration"
  | interfaceDeclaration => "interface_declaration"
  | recordDeclaration => "record_declaration"
  | recordKind => "record_kind"
  | enumDeclaration => "enum_declaration"
  | delegateDeclaration => "delegate_declaration"
  | parameterBlock => "parameter_block"
  | baseList => "base_list"
  | baseType => "base_type"
  | typeParameterList => "type_parameter_list"
  | typeParameter => "type_parameter"
  | constraintClause => "constraint_clause"
  | constraint => "constraint"
  | modifier => "modifier"
  | classBody => "class_body"
  | member => "member"
  | methodDeclaration => "method_declaration"
  | constructorDeclaration => "constructor_declaration"
  | constructorInitializer => "constructor_initializer"
  | destructorDeclaration => "destructor_declaration"
  | propertyDeclaration => "property_declaration"
  | indexerDeclaration => "indexer_declaration"
  | fieldDeclaration => "field_declaration"
  | variableDeclarator => "variable_declarator"
  | operatorDeclaration => "operator_declaration"
  | conversionDeclaration => "conversion_declaration"
  | memberName => "member_name"
  | memberBody => "member_body"
  | parameterList => "parameter_list"
  | parameter => "parameter"
  | parameterModifier => "parameter_modifier"
  | defaultValue => "default_value"
  | defaultArguments => "default_arguments"
  | type => "type"
  | typeSuffix => "type_suffix"
  | namedType => "named_type"
  | globalPrefix => "global_prefix"
  | simpleName => "simple_name"
  | typeArgumentList => "type_argument_list"
  | tupleType => "tuple_type"
  | tupleElement => "tuple_element"
  | predefinedType => "predefined_type"
  | attributeSection => "attribute_section"
  | attributeBrackets => "attribute_brackets"
  | argumentGroup => "argument_group"
  | nestedArguments => "nested_arguments"
  | expression => "expression"
  | expressionBlock => "expression_block"
  | block => "block"
  | nestedBlock => "nested_block"

/-- The phrases whose words and punctuation a tree keeps; in all others only the tokens with many
spellings stay. -/
def keepsTokens : Rule → Bool
  | usingDirective | recordKind | typeParameter | constraint | modifier | constructorInitializer
  | parameterModifier | typeSuffix | predefinedType => true
  | _ => false

open TerminalSet in
/-- What a phrase begins with. -/
def first : Rule → TerminalSet
  | source => usingStart ∪ namespaceMember
  | usingDirective => usingStart
  | qualifiedName | simpleName | memberName | variableDeclarator | constructorDeclaration =>
    single .name
  | namespaceDeclaration | fileScopedNamespace => single .namespaceKw
  | typeDeclaration => modifiers ∪ typeKinds ∪ single .leftBracket
  | classDeclaration => single .classKw
  | structDeclaration => single .structKw
  | interfaceDeclaration => single .interfaceKw
  | recordDeclaration => single .recordKw
  | recordKind => ofList [.classKw, .structKw]
  | enumDeclaration => single .enumKw
  | delegateDeclaration => single .delegateKw
  | parameterBlock | argumentGroup | nestedArguments | defaultArguments | tupleType =>
    single .leftParen
  | baseList | constructorInitializer => single .colon
  | baseType | type | tupleElement => typeStart
  | typeParameterList | typeArgumentList => single .less
  | typeParameter => ofList [.name, .inKw, .outKw, .leftBracket]
  | constraintClause => single .whereKw
  | constraint => typeStart ∪ ofList [.classKw, .structKw, .newKw, .defaultKw]
  | modifier => modifiers
  | classBody | block | nestedBlock | expressionBlock => single .leftBrace
  | member => memberStart
  | methodDeclaration | propertyDeclaration | indexerDeclaration | fieldDeclaration
  | operatorDeclaration => typeStart
  | destructorDeclaration => single .tilde
  | conversionDeclaration => single .operatorKw
  | memberBody => ofList [.leftBrace, .arrow, .semicolon]
  | parameterList | parameter => parameterStart
  | parameterModifier => parameterModifiers
  | defaultValue => single .equals
  | typeSuffix => typeSuffixStart
  | namedType => ofList [.globalKw, .name]
  | globalPrefix => single .globalKw
  | predefinedType => predefinedTypes
  | attributeSection | attributeBrackets => single .leftBracket
  | expression => ofList [.expressionChunk, .leftBrace]

open TerminalSet in
/-- What may stand after a phrase, wherever it occurs. -/
def follow : Rule → TerminalSet
  | source | fileScopedNamespace => single .endOfInput
  | usingDirective => afterUsing
  | qualifiedName => ofList [.leftBrace, .semicolon]
  | namespaceDeclaration | typeDeclaration => afterNamespaceMember
  | classDeclaration | structDeclaration | interfaceDeclaration | recordDeclaration
  | enumDeclaration | delegateDeclaration => afterTypeDeclaration
  | recordKind | globalPrefix => single .name
  | parameterBlock => afterBases ∪ single .colon
  | baseList => afterBases
  | baseType => afterBases ∪ single .comma
  | typeParameterList => afterBases ∪ ofList [.colon, .leftParen]
  | typeParameter => ofList [.comma, .greater]
  | constraintClause => afterConstraints
  | constraint | argumentGroup => afterConstraints ∪ single .comma
  | modifier => modifiers ∪ memberCore
  | classBody => afterTypeDeclaration ∪ single .semicolon
  | member | methodDeclaration | constructorDeclaration | destructorDeclaration
  | propertyDeclaration | indexerDeclaration | fieldDeclaration | operatorDeclaration
  | conversionDeclaration | memberBody => afterMember
  | constructorInitializer => ofList [.leftBrace, .arrow, .semicolon]
  | variableDeclarator | expression => ofList [.comma, .semicolon]
  | memberName => ofList [.less, .leftParen, .leftBrace, .arrow]
  | parameterList => ofList [.rightParen, .rightBracket]
  | parameter | defaultValue => afterParameter
  | parameterModifier => parameterModifiers ∪ typeStart
  | defaultArguments => afterParameter ∪ ofList [.leftParen, .parameterChunk]
  | type => afterType
  | typeSuffix | namedType | tupleType | predefinedType => afterTypeCore
  | simpleName | typeArgumentList => afterNamePart
  | tupleElement => ofList [.comma, .rightParen]
  | attributeSection => afterAttributes
  | attributeBrackets => ofList [.attributeChunk, .leftBracket, .rightBracket]
  | nestedArguments => ofList [.argumentChunk, .leftParen, .rightParen]
  | expressionBlock => ofList [.comma, .semicolon, .expressionChunk, .leftBrace]
  | block => afterTypeDeclaration ∪ ofList [.equals, .semicolon]
  | nestedBlock => ofList [.bodyChunk, .leftBrace, .rightBrace]

end Rule

namespace Pattern

/-- The pattern is met by no token at all. -/
def isNullable : Pattern → Bool
  | token _ | rule _ | plus _ _ => false
  | seq p q => p.isNullable && q.isNullable
  | alt p q => p.isNullable || q.isNullable
  | opt _ => true
  | resume _ _ p => p.isNullable

/-- What the pattern begins with. -/
def first : Pattern → TerminalSet
  | token t => .single t
  | rule r => r.first
  | seq p q => if p.isNullable then p.first ∪ q.first else p.first
  | alt p q => p.first ∪ q.first
  | opt p | plus _ p | resume _ _ p => p.first

/-- What may come next where the pattern and then one of `after` is due. -/
def admits (p : Pattern) (after : TerminalSet) : TerminalSet :=
  if p.isNullable then p.first ∪ after else p.first

/-- The patterns of a list, one after the other. -/
def all (p : Pattern) : List Pattern → Pattern
  | [] => p
  | q :: qs => seq p (all q qs)

/-- One of the patterns of a list. -/
def any (p : Pattern) : List Pattern → Pattern
  | [] => p
  | q :: qs => alt p (any q qs)

/-- Any number of repetitions. -/
def many (after : TerminalSet) (p : Pattern) : Pattern := opt (plus after p)

/-! ## Lists that occur in several phrases -/

open TerminalSet

/-- Using directives. -/
def usings : Pattern := many afterUsing (rule .usingDirective)

/-- A declaration in a namespace. -/
def namespaceMember : Pattern := alt (rule .namespaceDeclaration) (rule .typeDeclaration)

/-- Declarations in a namespace. -/
def namespaceMembers : Pattern := many afterNamespaceMember namespaceMember

/-- The further parts of a dotted name. -/
def dottedRest : Pattern :=
  many (ofList [.dot, .leftBrace, .less, .leftParen, .semicolon, .arrow])
    (seq (token .dot) (token .name))

/-- Attribute sections. -/
def attributes : Pattern := many afterAttributes (rule .attributeSection)

/-- Modifiers. -/
def modifiers : Pattern := many (TerminalSet.modifiers ∪ memberCore) (rule .modifier)

/-- Constraint clauses. -/
def constraintClauses : Pattern := many afterConstraints (rule .constraintClause)

/-- Elements after the first of a list divided by commas. -/
def commaRest (after : TerminalSet) (r : Rule) : Pattern :=
  many (after ∪ single .comma) (seq (token .comma) (rule r))

/-- Parameters between parentheses. -/
def parameters : Pattern := all (token .leftParen) [opt (rule .parameterList), token .rightParen]

/-- What stands between the brackets of an attribute. -/
def attributeItems : Pattern :=
  many (ofList [.attributeChunk, .leftBracket, .rightBracket])
    (alt (token .attributeChunk) (rule .attributeBrackets))

/-- What stands between the parentheses of an argument group. -/
def argumentItems : Pattern :=
  many (ofList [.argumentChunk, .leftParen, .rightParen])
    (alt (token .argumentChunk) (rule .nestedArguments))

/-- What stands between the braces of a block. -/
def blockItems : Pattern :=
  many (ofList [.bodyChunk, .leftBrace, .rightBrace]) (alt (token .bodyChunk) (rule .nestedBlock))

/-- The head of a type declaration after its name. -/
def typeHead : List Pattern := [opt (rule .baseList), constraintClauses]

/-- A declaration of a type, after its attributes and modifiers. -/
def typeCore : Pattern := any (rule .classDeclaration) [
  rule .structDeclaration, rule .interfaceDeclaration, rule .recordDeclaration,
  rule .enumDeclaration, rule .delegateDeclaration]

/-- A value after an arrow. -/
def arrowBody : Pattern := all (token .arrow) [rule .expression, token .semicolon]

/-- A using directive after its opening words: an imported namespace, the members of a type, or an
alias, which begins like a namespace. -/
def usingTarget : Pattern := alt
  (all (token .staticKw) [rule .qualifiedName, token .semicolon])
  (seq (token .name) (alt
    (all (token .equals) [rule .type, token .semicolon])
    (seq (resume .qualifiedName 1 dottedRest) (token .semicolon))))

/-- What stands between the braces of a namespace or after its semicolon. -/
def namespaceBody : List Pattern := [usings, namespaceMembers]

/-- A namespace at the beginning of a source holds either the rest of the source or what stands
between its braces. -/
def leadingNamespace : Pattern :=
  all (token .namespaceKw) [rule .qualifiedName, alt
    (seq (resume .namespaceDeclaration 2
      (all (token .leftBrace) (namespaceBody ++ [token .rightBrace, opt (token .semicolon)])))
      namespaceMembers)
    (resume .fileScopedNamespace 2 (all (token .semicolon) namespaceBody))]

/-- What follows the type of a method, property, indexer, field or operator. -/
def afterMemberType : Pattern := any
  (seq (token .name) (alt
    (resume .fieldDeclaration 2 (all
      (resume .variableDeclarator 1 (opt (seq (token .equals) (rule .expression))))
      [commaRest (ofList [.comma, .semicolon]) .variableDeclarator, token .semicolon]))
    (seq (resume .memberName 1 dottedRest) (alt
      (resume .methodDeclaration 2 (all (opt (rule .typeParameterList))
        [parameters, constraintClauses, rule .memberBody]))
      (resume .propertyDeclaration 2 (alt
        (seq (rule .block) (opt (all (token .equals) [rule .expression, token .semicolon])))
        arrowBody))))))
  [resume .indexerDeclaration 1 (all (token .thisKw) [token .leftBracket, rule .parameterList,
      token .rightBracket, alt (rule .block) arrowBody]),
    resume .operatorDeclaration 1 (all (token .operatorKw) [token .operatorSymbol, parameters,
      rule .memberBody])]

/-- The rest of a type that began with a name. -/
def typeAfterName : Pattern :=
  resume .type 1 (seq
    (resume .namedType 1 (seq
      (resume .simpleName 1 (opt (rule .typeArgumentList)))
      (many afterNamePart (seq (token .dot) (rule .simpleName)))))
    (many afterTypeCore (rule .typeSuffix)))

/-- A member that begins with a name: a constructor, or a member of that type. -/
def memberAfterName : Pattern := alt
  (resume .constructorDeclaration 1 (all parameters
    [opt (rule .constructorInitializer), rule .memberBody]))
  (seq typeAfterName afterMemberType)

/-- One of the terminals of a list. -/
def oneOf (t : Terminal) (ts : List Terminal) : Pattern := any (token t) (ts.map token)

end Pattern

open Pattern TerminalSet in
/-- The pattern of a phrase. -/
def Rule.body : Rule → Pattern
  | source => seq usings (opt (alt leadingNamespace (seq (rule .typeDeclaration) namespaceMembers)))
  | usingDirective => all (opt (token .globalKw)) [token .usingKw, usingTarget]
  | qualifiedName => seq (token .name) dottedRest
  | namespaceDeclaration => all (token .namespaceKw) ([rule .qualifiedName, token .leftBrace] ++
      namespaceBody ++ [token .rightBrace, opt (token .semicolon)])
  | fileScopedNamespace => all (token .namespaceKw)
      ([rule .qualifiedName, token .semicolon] ++ namespaceBody)
  | typeDeclaration => all attributes [Pattern.modifiers, typeCore]
  | classDeclaration => all (token .classKw) ([token .name, opt (rule .typeParameterList),
      opt (rule .parameterBlock)] ++ typeHead ++ [rule .classBody, opt (token .semicolon)])
  | structDeclaration => all (token .structKw) ([token .name, opt (rule .typeParameterList),
      opt (rule .parameterBlock)] ++ typeHead ++ [rule .classBody, opt (token .semicolon)])
  | interfaceDeclaration => all (token .interfaceKw) ([token .name,
      opt (rule .typeParameterList)] ++ typeHead ++ [rule .classBody, opt (token .semicolon)])
  | recordDeclaration => all (token .recordKw) ([opt (rule .recordKind), token .name,
      opt (rule .typeParameterList), opt (rule .parameterBlock)] ++ typeHead ++
      [alt (seq (rule .classBody) (opt (token .semicolon))) (token .semicolon)])
  | recordKind => oneOf .classKw [.structKw]
  | enumDeclaration => all (token .enumKw) [token .name, opt (seq (token .colon) (rule .type)),
      rule .block, opt (token .semicolon)]
  | delegateDeclaration => all (token .delegateKw) [rule .type, token .name,
      opt (rule .typeParameterList), parameters, constraintClauses, token .semicolon]
  | parameterBlock => parameters
  | baseList => all (token .colon) [rule .baseType, commaRest afterBases .baseType]
  | baseType => seq (rule .type) (opt (rule .argumentGroup))
  | typeParameterList => all (token .less) [rule .typeParameter,
      commaRest (single .greater) .typeParameter, token .greater]
  | typeParameter => all attributes [opt (oneOf .inKw [.outKw]), token .name]
  | constraintClause => all (token .whereKw) [token .name, token .colon, rule .constraint,
      commaRest afterConstraints .constraint]
  | constraint => any (seq (token .classKw) (opt (token .question))) [token .structKw,
      all (token .newKw) [token .leftParen, token .rightParen], token .defaultKw, rule .type]
  | modifier => oneOf .publicKw [.privateKw, .protectedKw, .internalKw, .fileKw, .staticKw,
      .partialKw, .abstractKw, .sealedKw, .virtualKw, .overrideKw, .readonlyKw, .asyncKw, .newKw,
      .unsafeKw, .externKw, .requiredKw, .volatileKw, .constKw, .eventKw, .implicitKw,
      .explicitKw, .refKw, .fixedKw]
  | classBody => all (token .leftBrace) [many afterMember (rule .member), token .rightBrace]
  | member => all attributes [Pattern.modifiers, any typeCore [rule .destructorDeclaration,
      rule .conversionDeclaration, seq (token .name) memberAfterName,
      seq (rule .type) afterMemberType]]
  | methodDeclaration => all (rule .type) [rule .memberName, opt (rule .typeParameterList),
      parameters, constraintClauses, rule .memberBody]
  | constructorDeclaration => all (token .name) [parameters, opt (rule .constructorInitializer),
      rule .memberBody]
  | constructorInitializer => all (token .colon) [oneOf .baseKw [.thisKw], rule .argumentGroup]
  | destructorDeclaration => all (token .tilde) [token .name, token .leftParen, token .rightParen,
      rule .memberBody]
  | propertyDeclaration => all (rule .type) [rule .memberName, alt
      (seq (rule .block) (opt (all (token .equals) [rule .expression, token .semicolon])))
      arrowBody]
  | indexerDeclaration => all (rule .type) [token .thisKw, token .leftBracket, rule .parameterList,
      token .rightBracket, alt (rule .block) arrowBody]
  | fieldDeclaration => all (rule .type) [rule .variableDeclarator,
      commaRest (ofList [.comma, .semicolon]) .variableDeclarator, token .semicolon]
  | variableDeclarator => seq (token .name) (opt (seq (token .equals) (rule .expression)))
  | operatorDeclaration => all (rule .type) [token .operatorKw, token .operatorSymbol, parameters,
      rule .memberBody]
  | conversionDeclaration => all (token .operatorKw) [rule .type, parameters, rule .memberBody]
  | memberName => seq (token .name) dottedRest
  | memberBody => any (rule .block) [arrowBody, token .semicolon]
  | parameterList => seq (rule .parameter) (commaRest afterParameter .parameter)
  | parameter => all attributes [many (parameterModifiers ∪ typeStart) (rule .parameterModifier),
      rule .type, token .name, opt (rule .defaultValue)]
  | parameterModifier => oneOf .refKw [.outKw, .inKw, .paramsKw, .thisKw, .scopedKw, .readonlyKw]
  | defaultValue => seq (token .equals)
      (plus (afterParameter ∪ ofList [.leftParen, .parameterChunk])
        (alt (token .parameterChunk) (rule .defaultArguments)))
  | defaultArguments | argumentGroup | nestedArguments =>
      all (token .leftParen) [argumentItems, token .rightParen]
  | type => seq (any (rule .namedType) [rule .predefinedType, rule .tupleType])
      (many afterTypeCore (rule .typeSuffix))
  | typeSuffix => any (token .question) [all (token .leftBracket)
      [many (ofList [.comma, .rightBracket]) (token .comma), token .rightBracket], token .star]
  | namedType => all (opt (rule .globalPrefix)) [rule .simpleName,
      many afterNamePart (seq (token .dot) (rule .simpleName))]
  | globalPrefix => seq (token .globalKw) (token .doubleColon)
  | simpleName => seq (token .name) (opt (rule .typeArgumentList))
  | typeArgumentList => all (token .less) [rule .type, commaRest (single .greater) .type,
      token .greater]
  | tupleType => all (token .leftParen) [rule .tupleElement,
      plus (ofList [.comma, .rightParen]) (seq (token .comma) (rule .tupleElement)),
      token .rightParen]
  | tupleElement => seq (rule .type) (opt (token .name))
  | predefinedType => oneOf .boolKw [.byteKw, .sbyteKw, .charKw, .decimalKw, .doubleKw, .floatKw,
      .intKw, .uintKw, .longKw, .ulongKw, .shortKw, .ushortKw, .objectKw, .stringKw, .voidKw]
  | attributeSection | attributeBrackets =>
      all (token .leftBracket) [attributeItems, token .rightBracket]
  | expression => plus (ofList [.comma, .semicolon, .expressionChunk, .leftBrace])
      (alt (token .expressionChunk) (rule .expressionBlock))
  | expressionBlock | block | nestedBlock =>
      all (token .leftBrace) [blockItems, token .rightBrace]

end Facade
