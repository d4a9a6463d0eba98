import Dockerfile.Session.Shape

/-!
# Capabilities of a client

When a session is opened, the client tells what it can do, feature by feature.  None of it changes
an answer, but all of it has to have the agreed shape.
-/

namespace Dockerfile

namespace Capabilities

def switches (names : List String) : List (String × Shape) :=
  names.map fun name => (name, .truth)

/-- A feature of which only switches are told. -/
def feature (names : List String) : Shape :=
  .record (switches names)

def registered : Shape :=
  feature ["dynamicRegistration"]

def linked : Shape :=
  feature ["dynamicRegistration", "linkSupport"]

def valueSet (item : Shape) : Shape :=
  .record [("valueSet", .list item)]

def properties : Shape :=
  .record [("properties", .list .text)]

def workspaceEdit : Shape :=
  .record
    (switches ["documentChanges", "normalizesLineEndings"] ++
      [("resourceOperations", .list .text),
        ("failureHandling", .text),
        ("changeAnnotationSupport", feature ["groupsOnLabel"])])

def workspaceSymbol : Shape :=
  .record
    (switches ["dynamicRegistration"] ++
      [("symbolKind", valueSet .integer32), ("tagSupport", valueSet .integer32)])

def workspace : Shape :=
  .record
    (switches ["applyEdit", "workspaceFolders", "configuration"] ++
      [("workspaceEdit", workspaceEdit),
        ("didChangeConfiguration", registered),
        ("didChangeWatchedFiles", registered),
        ("symbol", workspaceSymbol),
        ("executeCommand", registered),
        ("semanticTokens", feature ["refreshSupport"]),
        ("codeLens", feature ["refreshSupport"]),
        ("fileOperations", feature
          ["dynamicRegistration", "didCreate", "willCreate", "didRename", "willRename", "didDelete",
            "willDelete"])])

def completionItem : Shape :=
  .record
    (switches ["snippetSupport", "commitCharactersSupport", "deprecatedSupport",
        "preselectSupport", "insertReplaceSupport"] ++
      [("documentationFormat", .list .text),
        ("tagSupport", valueSet .integer32),
        ("resolveSupport", properties),
        ("insertTextModeSupport", valueSet .integer32)])

def completion : Shape :=
  .record
    (switches ["dynamicRegistration", "contextSupport"] ++
      [("completionItem", completionItem), ("completionItemKind", valueSet .integer32)])

def hover : Shape :=
  .record (switches ["dynamicRegistration"] ++ [("contentFormat", .list .text)])

def signatureHelp : Shape :=
  .record
    (switches ["dynamicRegistration", "contextSupport"] ++
      [("signatureInformation", .record
        (switches ["activeParameterSupport"] ++
          [("documentationFormat", .list .text),
            ("parameterInformation", feature ["labelOffsetSupport"])]))])

def documentSymbol : Shape :=
  .record
    (switches ["dynamicRegistration", "hierarchicalDocumentSymbolSupport", "labelSupport"] ++
      [("symbolKind", valueSet .integer32), ("tagSupport", valueSet .integer32)])

def codeAction : Shape :=
  .record
    (switches ["dynamicRegistration", "isPreferredSupport", "disabledSupport", "dataSupport",
        "honorsChangeAnnotations"] ++
      [("codeActionLiteralSupport", .record [("codeActionKind", valueSet .text)]),
        ("resolveSupport", properties)])

def rename : Shape :=
  .record
    (switches ["dynamicRegistration", "prepareSupport", "honorsChangeAnnotations"] ++
      [("prepareSupportDefaultBehavior", .integer32)])

def publishDiagnostics : Shape :=
  .record
    (switches ["relatedInformation", "versionSupport", "codeDescriptionSupport", "dataSupport"] ++
      [("tagSupport", valueSet .integer32)])

def foldingRange : Shape :=
  .record (switches ["dynamicRegistration", "lineFoldingOnly"] ++ [("rangeLimit", .natural32)])

/-- What the client asks of semantic tokens: for a range, or for all of a document, of which it may
want the changes only. -/
def semanticTokenRequests : Shape :=
  .both (.last ["requests", "range"] (.either .truth (.record [])))
    (.last ["requests", "full"] (.either .truth (feature ["delta"])))

def semanticTokens : Shape :=
  .both
    (.record
      (switches ["dynamicRegistration", "overlappingTokenSupport", "multilineTokenSupport"] ++
        [("requests", .record []),
          ("tokenTypes", .list .text),
          ("tokenModifiers", .list .text),
          ("formats", .list .text)]))
    semanticTokenRequests

def textDocument : Shape :=
  .record
    [("synchronization", feature
        ["dynamicRegistration", "willSave", "willSaveWaitUntil", "didSave"]),
      ("completion", completion),
      ("hover", hover),
      ("signatureHelp", signatureHelp),
      ("declaration", linked),
      ("definition", linked),
      ("typeDefinition", linked),
      ("implementation", linked),
      ("references", registered),
      ("documentHighlight", registered),
      ("documentSymbol", documentSymbol),
      ("codeAction", codeAction),
      ("codeLens", registered),
      ("documentLink", feature ["dynamicRegistration", "tooltipSupport"]),
      ("colorProvider", registered),
      ("formatting", registered),
      ("rangeFormatting", registered),
      ("onTypeFormatting", registered),
      ("rename", rename),
      ("publishDiagnostics", publishDiagnostics),
      ("foldingRange", foldingRange),
      ("selectionRange", registered),
      ("linkedEditingRange", registered),
      ("callHierarchy", registered),
      ("semanticTokens", semanticTokens),
      ("moniker", registered)]

def window : Shape :=
  .record
    (switches ["workDoneProgress"] ++
      [("showMessage", .record [("messageActionItem", feature ["additionalPropertiesSupport"])]),
        ("showDocument", feature ["support"])])

def general : Shape :=
  .record
    [("regularExpressions", .record [("engine", .text), ("version", .text)]),
      ("markdown", .record [("parser", .text), ("version", .text)])]

def shape : Shape :=
  .record
    [("workspace", workspace),
      ("textDocument", textDocument),
      ("window", window),
      ("general", general),
      ("experimental", .anything)]

end Capabilities

end Dockerfile
