import ImportAssist.Syntax.Grammar.Symbol

/-!
# Markup

Elements inside expressions: `<tag attribute="value">text and &#123; expressions &#125;</tag>`. The
name of a closing tag need not repeat that of the opening one.
-/

namespace ImportAssist.Grammar

def tagName : Production :=
  .alt [
    .lexeme .identifier false .dashedName,
    .seq [.name .identifier [], sign ":", .name .identifier []],
    .chain (.name .identifier [])
      [.mk .memberExpression (some .object) [] (.seq [sign ".", .role .property propertyIdentifier])]]

def attributeName : Production :=
  let simple :=
    .alt [
      .lexeme .propertyIdentifier false .dashedName,
      propertyIdentifier]
  .seq [simple, .opt (.seq [sign ":", simple])]

def markupExpression : Production :=
  .node .markupExpression
    (braced (.opt (.alt [
      .node .spreadElement (.seq [sign "...", .call .expression]), .call .expressions])))

def markupAttribute : Production :=
  .alt [
    markupExpression,
    .node .markupAttribute
      (.seq [attributeName,
        .opt (.seq [sign "=",
          .alt [.lexeme .string false .markupString, markupExpression, .call .markupElement]])])]

def markupElement (d : Dialect) : Production :=
  .node .markupElement
    (.seq [operator "<" "/<=",
      .opt (.seq [tagName, .opt (onlyIf d.typed (.call .typeArguments)), .many markupAttribute]),
      .alt [
        sign "/>",
        .seq [sign ">",
          .many (.alt [
            .lexeme .markupText true .markupText,
            .lexeme .markupText true .characterReference,
            .call .markupElement, markupExpression]),
          sign "</", .opt tagName, sign ">"]]])

end ImportAssist.Grammar
